import Hbm.Complete
import Hbm.SendBlock

/-!
The two ends of a connection. One end sends messages with `sendBlock` and `sendBlocks`, the other
one receives with `receive` and `receiveComplete`, and the single system calls of both come in
any order.

Every byte that the kernel has taken from the sender is where it belongs: handed on to the
caller, or in the internal buffer of the receiver, or still underway. The sizes that the receiver
asks for cut this stream; where they are the lengths of the messages, the pieces are the messages.
-/

namespace Hbm.Conversation

open Hbm.Size Hbm.Blocks Hbm.BufferedReader Hbm.Run Hbm.Receive Hbm.Complete
open Hbm.SendBlocks (Verdict)
open Hbm.Stream (Answer)

/-! ### Pieces of a concatenation -/

/-- Pieces that make up the start of a concatenation and are cut by the lengths of its parts are
its first parts. -/
lemma eq_take_of_flatten {α : Type*} {ps qs : List (List α)}
    (hlen : ps.map List.length = (qs.take ps.length).map List.length)
    (h : ps.flatten <+: qs.flatten) : ps = qs.take ps.length := by
  have hparts : (qs.take ps.length).flatten <+: qs.flatten := by
    refine ⟨(qs.drop ps.length).flatten, ?_⟩
    rw [← List.flatten_append, List.take_append_drop]
  have hsame : ps.flatten.length = (qs.take ps.length).flatten.length := by
    rw [List.length_flatten, List.length_flatten, hlen]
  have hflat : ps.flatten = (qs.take ps.length).flatten :=
    (List.prefix_of_prefix_length_le h hparts hsame.le).eq_of_length hsame
  exact List.eq_iff_flatten_eq.mpr ⟨hflat, hlen⟩

/-! ### The sender -/

/-- A call of `sendBlocks` or of `sendBlock`. -/
inductive SendCall
  | blocks (s : SendBlocks.St)
  | block (s : SendBlock.St)

/-- A call that sends `msg`, with the caller's memory. -/
structure Sending where
  mem : Memory
  msg : List UInt8
  call : SendCall

inductive SendLabel
  | blocks (l : SendBlocks.Label)
  | block (l : SendBlock.Label)

namespace Sending

/-- What the kernel has taken from the call. -/
def accepted (x : Sending) : List UInt8 :=
  match x.call with
  | .blocks s => s.accepted
  | .block s => s.accepted

def retVal (x : Sending) : Option ℤ :=
  match x.call with
  | .blocks s =>
    match s.pc with
    | .returned retVal => some retVal
    | _ => none
  | .block s => if s.pc = .returned then some s.retVal else none

def step (x : Sending) : SendLabel → Option Sending
  | .blocks l =>
    match x.call with
    | .blocks s => (SendBlocks.step x.mem s l).map fun s => { x with call := .blocks s }
    | .block _ => none
  | .block l =>
    match x.call with
    | .block s => (SendBlock.step x.mem s l).map fun s => { x with call := .block s }
    | .blocks _ => none

def sendBlocks (mem : Memory) (blocks : List DataBlock) : Sending :=
  ⟨mem, concat mem blocks, .blocks (SendBlocks.start blocks)⟩

def sendBlock (mem : Memory) (pBlock size : ℕ) : Sending :=
  ⟨mem, load mem pBlock size, .block (SendBlock.start pBlock size)⟩

/-- The invariant of the call. -/
structure Inv (x : Sending) : Prop where
  bound : x.msg.length ≤ ssizeMax
  call : match x.call with
    | .blocks s => SendBlocks.Inv x.mem x.msg s
    | .block s => SendBlock.Inv x.mem x.msg s

variable {x y : Sending} {l : SendLabel}

lemma sendBlocks_inv {mem : Memory} {blocks : List DataBlock} (hcount : blocks.length < sizeMod)
    (htotal : sizes blocks ≤ ssizeMax) : Inv (sendBlocks mem blocks) :=
  ⟨by rw [sendBlocks, concat_length]; exact htotal, SendBlocks.start_inv hcount htotal⟩

lemma sendBlock_inv {mem : Memory} {pBlock size : ℕ} (hsize : size ≤ ssizeMax) :
    Inv (sendBlock mem pBlock size) :=
  ⟨by rw [sendBlock, load_length]; exact hsize, SendBlock.start_inv hsize⟩

/-- Nothing but the start of the message is sent. -/
lemma Inv.sent (hi : Inv x) : x.accepted <+: x.msg := by
  obtain ⟨mem, msg, call⟩ := x
  cases call with
  | blocks s =>
    have hat := hi.call.at_pc
    simp only [accepted]
    cases hpc : s.pc <;> simp only [hpc, SendBlocks.At] at hat
    · exact hat.1.sent
    · exact hat.1.sent
    · exact hat.1.sent
    · exact hat.sent
  | block s =>
    have hat : SendBlock.At mem msg s s.pc := hi.call
    simp only [accepted]
    cases hpc : s.pc <;> simp only [hpc, SendBlock.At] at hat
    · exact ⟨_, hat.1.rest⟩
    · exact ⟨_, hat.1.rest⟩
    · exact hat.sent

lemma Inv.verdict {v : ℤ} (hi : Inv x) (h : x.retVal = some v) :
    Verdict x.msg x.accepted v := by
  obtain ⟨mem, msg, call⟩ := x
  cases call with
  | blocks s =>
    have hat := hi.call.at_pc
    simp only [retVal] at h
    split at h
    · rename_i hpc
      cases h
      rw [hpc] at hat
      exact hat
    · cases h
  | block s =>
    have hat : SendBlock.At mem msg s s.pc := hi.call
    simp only [retVal] at h
    split at h
    · rename_i hpc
      cases h
      rw [hpc] at hat
      exact hat
    · cases h

end Sending

/-- A step of `sendBlocks` adds to what was taken. -/
lemma sendBlocks_grows {mem : Memory} {s t : SendBlocks.St} {l : SendBlocks.Label}
    (h : SendBlocks.step mem s l = some t) : s.accepted <+: t.accepted := by
  cases l with
  | sendmsg k =>
    simp only [SendBlocks.step] at h
    split at h <;> cases h
    cases k with
    | ok n =>
      simp only [SendBlocks.sendmsg, SendBlocks.written]
      split_ifs <;> exact List.prefix_append _ _
    | failed e =>
      simp only [SendBlocks.sendmsg, SendBlocks.written]
      split_ifs <;> exact List.prefix_rfl
  | reorganize =>
    simp only [SendBlocks.step] at h
    split at h <;> cases h
    simp only [SendBlocks.reorganize]
    split
    · exact List.prefix_rfl
    · split_ifs <;> exact List.prefix_rfl
  | poll p =>
    simp only [SendBlocks.step] at h
    split at h <;> cases h
    simp only [SendBlocks.poll]
    split_ifs <;> exact List.prefix_rfl

lemma sendBlock_grows {mem : Memory} {s t : SendBlock.St} {l : SendBlock.Label}
    (h : SendBlock.step mem s l = some t) : s.accepted <+: t.accepted := by
  cases l with
  | send k =>
    simp only [SendBlock.step] at h
    split at h <;> cases h
    cases k with
    | ok n =>
      simp only [SendBlock.send]
      split_ifs
      · exact List.prefix_append _ _
      · exact List.prefix_rfl
    | failed e =>
      simp only [SendBlock.send]
      split_ifs <;> exact List.prefix_rfl
  | poll p =>
    simp only [SendBlock.step] at h
    split at h <;> cases h
    simp only [SendBlock.poll]
    split_ifs <;> exact List.prefix_rfl

/-- One step of a send. -/
lemma Sending.step_spec {x y : Sending} {l : SendLabel} (hi : x.Inv) (h : x.step l = some y) :
    y.Inv ∧ y.msg = x.msg ∧ x.accepted <+: y.accepted := by
  obtain ⟨mem, msg, call⟩ := x
  cases l with
  | blocks l =>
    simp only [step] at h
    split at h
    · obtain ⟨t, ht, rfl⟩ := Option.map_eq_some_iff.mp h
      exact ⟨⟨hi.bound, SendBlocks.step_inv hi.call hi.bound ht⟩, rfl, sendBlocks_grows ht⟩
    · cases h
  | block l =>
    simp only [step] at h
    split at h
    · obtain ⟨t, ht, rfl⟩ := Option.map_eq_some_iff.mp h
      exact ⟨⟨hi.bound, SendBlock.step_inv hi.call hi.bound ht⟩, rfl, sendBlock_grows ht⟩
    · cases h

/-! ### Both ends -/

/-- A finished call of the receiver: `receiveComplete` or `receive`. -/
structure Got where
  complete : Bool
  size : ℕ
  retVal : ℤ
  stored : List UInt8

/-- The call reported the end of the stream. -/
def Got.IsEnd (g : Got) : Prop :=
  if g.complete then g.retVal ≠ -1 ∧ g.retVal ≠ g.size else g.retVal = 0 ∧ 0 < g.size

structure St where
  sender : Option Sending
  /-- the stream of the connection is what is underway -/
  conn : Conn UInt8
  receiver : Option (Call UInt8)
  /-- the sender has closed the connection -/
  closed : Bool
  reset : Bool
  /-- some call of the sender did not return the length of its message -/
  failed : Bool
  /-- the messages that the sender began to send -/
  msgs : List (List UInt8)
  /-- what the kernel has taken from the sender -/
  accepted : List UInt8
  got : List Got

inductive Label
  | sendBlocks (mem : Memory) (blocks : List DataBlock)
  | sendBlock (mem : Memory) (pBlock size : ℕ)
  | sending (l : SendLabel)
  | close
  | reset (n : ℕ)
  | receive (size : ℕ) (k : Answer)
  | receiveComplete (size : ℕ)
  | receiving (l : Complete.Label)

namespace St

/-- After a step of the sender's call. -/
def sent (s : St) (x : Sending) : St :=
  match x.retVal with
  | none => { s with sender := some x }
  | some v => { s with sender := none, failed := s.failed || v != x.msg.length }

/-- The sender begins a call. -/
def begin (s : St) (x : Sending) : St := { s with msgs := s.msgs ++ [x.msg] }.sent x

/-- The kernel takes bytes; after a reset they are lost. -/
def take (s : St) (bytes : List UInt8) : St :=
  { s with
    accepted := s.accepted ++ bytes
    conn := if s.reset then s.conn else { s.conn with stream := s.conn.stream ++ bytes } }

/-- After a step of the receiver's call. -/
def received (s : St) (c : Conn UInt8) (k : Call UInt8) : St :=
  match k.pc with
  | .returned v =>
    { s with conn := c, receiver := none, got := s.got ++ [⟨true, k.size, v, k.stored⟩] }
  | _ => { s with conn := c, receiver := some k }

/-- The stream ends only where the sender has closed it. -/
def allows (s : St) : Answer → Bool
  | .eof => s.closed && !s.reset
  | _ => true

def allowsRead (s : St) : Complete.Label → Bool
  | .read k _ => s.allows k
  | _ => true

end St

def step (s : St) : Label → Option St
  | .sendBlocks mem blocks =>
    if s.sender.isNone && !s.closed then some (s.begin (.sendBlocks mem blocks)) else none
  | .sendBlock mem pBlock size =>
    if s.sender.isNone && !s.closed then some (s.begin (.sendBlock mem pBlock size)) else none
  | .sending l =>
    match s.sender with
    | none => none
    | some x => (x.step l).map fun y => (s.take (y.accepted.drop x.accepted.length)).sent y
  | .close => if s.sender.isNone then some { s with closed := true } else none
  | .reset n =>
    some { s with reset := true, conn := { s.conn with stream := s.conn.stream.take n } }
  | .receive size k =>
    let x := Receive.receive s.conn.reader size (k.readv s.conn.stream)
    if s.receiver.isNone && (possible (size + bufferSize) s.conn.stream k && s.allows k) then
      some { s with
        conn := ⟨x.reader, if x.called then s.conn.stream.drop (k.readv s.conn.stream).bytes.length
          else s.conn.stream⟩
        got := s.got ++ [⟨false, size, x.ret, x.stored⟩] }
    else none
  | .receiveComplete size =>
    if s.receiver.isNone then some (s.received s.conn (receiveComplete size)) else none
  | .receiving l =>
    match s.receiver with
    | none => none
    | some k =>
      if s.allowsRead l then
        (Complete.step ⟨s.conn, k⟩ l).map fun t => s.received t.conn t.call
      else none

/-- A new connection; what the internal buffer holds does not matter. -/
def start (buffer : List UInt8) (h : buffer.length = bufferSize) : St :=
  ⟨none, ⟨⟨buffer, 0, 0, h⟩, []⟩, none, false, false, false, [], [], []⟩

/-- The condition on the steps: the areas have sizes that a signed size can say, and the sender
stops after the first call that fails. -/
def Proper (s : St) : Label → Prop
  | .sendBlocks _ blocks => s.failed = false ∧ blocks.length < sizeMod ∧ sizes blocks ≤ ssizeMax
  | .sendBlock _ _ size => s.failed = false ∧ size ≤ ssizeMax
  | .receive size _ => size ≤ ssizeMax
  | .receiveComplete size => size ≤ ssizeMax
  | _ => True

/-- What the callers got: the areas of finished calls, and what the call in progress has stored. -/
def handed (s : St) : List UInt8 :=
  (s.got.map Got.stored).flatten ++ (s.receiver.map Call.stored).getD []

/-- Where the messages are: all of a finished call that succeeded, and the start of the last
one. -/
structure Sends (s : St) : Prop where
  kept : s.accepted <+: s.msgs.flatten
  all : s.sender = none → s.failed = false → s.accepted = s.msgs.flatten
  busy : ∀ x, s.sender = some x → x.Inv ∧ s.failed = false ∧
    ∃ ms, s.msgs = ms ++ [x.msg] ∧ s.accepted = ms.flatten ++ x.accepted

/-- Where the bytes are. -/
structure Receives (s : St) : Prop where
  wf : Wf s.conn.reader
  kept : handed s ++ residual s.conn <+: s.accepted
  all : s.reset = false → handed s ++ residual s.conn = s.accepted
  busy : ∀ k, s.receiver = some k → k.size ≤ ssizeMax ∧ (∀ v, k.pc ≠ .returned v) ∧
    Complete.Inv k.size (k.stored ++ residual s.conn) ⟨s.conn, k⟩
  full : ∀ g ∈ s.got, g.retVal = g.size → g.stored.length = g.size
  ended : ∀ g ∈ s.got, g.IsEnd → s.closed = true ∧ handed s = s.accepted

structure Inv (s : St) : Prop where
  sends : Sends s
  receives : Receives s
  closed : s.closed = true → s.sender = none

variable {s t : St} {l : Label}

/-! ### Steps of the sender -/

lemma take_residual (bytes : List UInt8) :
    residual (s.take bytes).conn =
      if s.reset then residual s.conn else residual s.conn ++ bytes := by
  unfold St.take Complete.residual
  split
  · rfl
  · simp only [List.append_assoc]

/-- A call that waits for more does not mind what the stream becomes. -/
lemma inv_restream {c : Conn UInt8} {k : Call UInt8} {all : List UInt8} {stream : List UInt8}
    (hi : Complete.Inv k.size all ⟨c, k⟩) (hpc : ∀ v, k.pc ≠ .returned v) :
    Complete.Inv k.size (k.stored ++ residual { c with stream := stream })
      ⟨{ c with stream := stream }, k⟩ :=
  ⟨hi.wf, rfl, rfl, hi.left, hi.loop, fun v hv => absurd hv (hpc v)⟩

/-- The sender's step adds bytes to what was taken and, without a reset, to what is underway. -/
lemma take_receives {bytes : List UInt8} (hr : Receives s)
    (hopen : s.closed = true → bytes = []) : Receives (s.take bytes) := by
  have hres := take_residual (s := s) bytes
  have hhanded : handed (s.take bytes) = handed s := rfl
  have hall : s.reset = false → handed s ++ residual (s.take bytes).conn = s.accepted ++ bytes := by
    intro hreset
    rw [hres, hreset, if_neg Bool.false_ne_true, ← List.append_assoc, hr.all hreset]
  refine ⟨?_, ?_, hall, fun k hk => ?_, hr.full, fun g hg hend => ?_⟩
  · unfold St.take
    split <;> exact hr.wf
  · cases hreset : s.reset with
    | false =>
      rw [hhanded, hall hreset]
      exact List.prefix_rfl
    | true =>
      rw [hhanded, hres, hreset, if_pos rfl]
      exact hr.kept.trans (List.prefix_append _ _)
  · obtain ⟨hmax, hpc, hk⟩ := hr.busy k hk
    unfold St.take
    split
    · exact ⟨hmax, hpc, hk⟩
    · exact ⟨hmax, hpc, inv_restream hk hpc⟩
  · obtain ⟨hclosed, heq⟩ := hr.ended g hg hend
    refine ⟨hclosed, ?_⟩
    rw [hhanded, heq, show (s.take bytes).accepted = s.accepted ++ bytes from rfl, hopen hclosed,
      List.append_nil]

/-- What the sender's call is does not matter to the receiver. -/
lemma sent_receives {x : Sending} (hr : Receives s) : Receives (s.sent x) := by
  unfold St.sent
  split <;> exact ⟨hr.wf, hr.kept, hr.all, hr.busy, hr.full, hr.ended⟩

/-- The call goes on or is done. -/
lemma sent_sends {x : Sending} (ms : List (List UInt8)) (hx : x.Inv) (hfailed : s.failed = false)
    (hmsgs : s.msgs = ms ++ [x.msg]) (haccepted : s.accepted = ms.flatten ++ x.accepted) :
    Sends (s.sent x) := by
  have hkept : s.accepted <+: s.msgs.flatten := by
    rw [haccepted, hmsgs, List.flatten_append, List.flatten_singleton]
    exact (List.prefix_append_right_inj _).mpr hx.sent
  unfold St.sent
  split
  · refine ⟨hkept, nofun, fun y hy => ?_⟩
    cases hy
    exact ⟨hx, hfailed, ms, hmsgs, haccepted⟩
  · rename_i v hv
    refine ⟨hkept, fun _ hok => ?_, nofun⟩
    have hret : v = x.msg.length := by simpa [hfailed] using hok
    have hdone : x.accepted = x.msg := (hx.verdict hv).complete hret
    show s.accepted = s.msgs.flatten
    rw [haccepted, hmsgs, hdone, List.flatten_append, List.flatten_singleton]

lemma sent_closed {x : Sending} : (s.sent x).closed = s.closed := by
  unfold St.sent
  split <;> rfl

lemma begin_inv {x : Sending} (hi : Inv s) (hx : x.Inv) (hnew : x.accepted = [])
    (hidle : s.sender = none) (hopen : s.closed = false) (hfailed : s.failed = false) :
    Inv (s.begin x) := by
  refine ⟨?_, ?_, fun hc => ?_⟩
  · refine sent_sends s.msgs hx hfailed rfl ?_
    rw [hnew, List.append_nil]
    exact hi.sends.all hidle hfailed
  · refine sent_receives ⟨hi.receives.wf, hi.receives.kept, hi.receives.all, hi.receives.busy,
      hi.receives.full, hi.receives.ended⟩
  · rw [St.begin, sent_closed] at hc
    exact absurd (hopen.symm.trans hc) Bool.false_ne_true

lemma sending_inv {l : SendLabel} (hi : Inv s) (h : step s (.sending l) = some t) : Inv t := by
  simp only [step] at h
  split at h
  · cases h
  rename_i x hx
  obtain ⟨y, hy, rfl⟩ := Option.map_eq_some_iff.mp h
  obtain ⟨hxi, hfailed, ms, hmsgs, haccepted⟩ := hi.sends.busy x hx
  obtain ⟨hyi, hmsg, bytes, hgrow⟩ := Sending.step_spec hxi hy
  have hnew : y.accepted.drop x.accepted.length = bytes := by rw [← hgrow, List.drop_left]
  have hopen : s.closed = true → bytes = [] := by
    intro hc
    have hnone := hi.closed hc
    rw [hx] at hnone
    cases hnone
  rw [hnew]
  refine ⟨?_, sent_receives (take_receives hi.receives hopen), fun hc => ?_⟩
  · refine sent_sends ms hyi hfailed ?_ ?_
    · rw [hmsg]
      exact hmsgs
    · show s.accepted ++ bytes = _
      rw [haccepted, ← hgrow, List.append_assoc]
  · rw [sent_closed] at hc
    have hnone := hi.closed hc
    rw [hx] at hnone
    cases hnone

/-! ### Steps of the receiver -/

/-- The receiver has stored some bytes more, the first ones that were to come. -/
structure Took (s t : St) (bytes : List UInt8) : Prop where
  sender : t.sender = s.sender
  failed : t.failed = s.failed
  msgs : t.msgs = s.msgs
  accepted : t.accepted = s.accepted
  closed : t.closed = s.closed
  reset : t.reset = s.reset
  handed : handed t = handed s ++ bytes
  residual : residual s.conn = bytes ++ residual t.conn

lemma Took.total {bytes : List UInt8} (h : Took s t bytes) :
    Conversation.handed t ++ Complete.residual t.conn =
      Conversation.handed s ++ Complete.residual s.conn := by
  rw [h.handed, h.residual, List.append_assoc]

lemma took_inv (bytes : List UInt8) (hi : Inv s) (h : Took s t bytes) (hwf : Wf t.conn.reader)
    (hbusy : ∀ k, t.receiver = some k → k.size ≤ ssizeMax ∧ (∀ v, k.pc ≠ .returned v) ∧
      Complete.Inv k.size (k.stored ++ residual t.conn) ⟨t.conn, k⟩)
    (hgot : ∀ g ∈ t.got, g ∈ s.got ∨ (g.retVal = g.size → g.stored.length = g.size) ∧
      (g.IsEnd → s.closed = true ∧ s.reset = false ∧ residual t.conn = [])) : Inv t := by
  have hkept := hi.receives.kept
  refine ⟨⟨?_, fun hidle hok => ?_, fun x hx => ?_⟩, ⟨hwf, ?_, fun hreset => ?_, hbusy, ?_, ?_⟩,
    fun hc => ?_⟩
  · rw [h.accepted, h.msgs]
    exact hi.sends.kept
  · rw [h.sender] at hidle
    rw [h.failed] at hok
    rw [h.accepted, h.msgs]
    exact hi.sends.all hidle hok
  · rw [h.sender] at hx
    rw [h.failed, h.msgs, h.accepted]
    exact hi.sends.busy x hx
  · rw [h.total, h.accepted]
    exact hkept
  · rw [h.total, h.accepted]
    exact hi.receives.all (h.reset ▸ hreset)
  · intro g hg hret
    rcases hgot g hg with hold | ⟨hfull, -⟩
    · exact hi.receives.full g hold hret
    · exact hfull hret
  · intro g hg hend
    rw [h.closed, h.accepted]
    rcases hgot g hg with hold | ⟨-, hnew⟩
    · obtain ⟨hclosed, heq⟩ := hi.receives.ended g hold hend
      refine ⟨hclosed, ?_⟩
      -- everything was handed on before
      have hlen := hkept.length_le
      rw [← heq, List.length_append, h.residual, List.length_append] at hlen
      have hnil : bytes = [] := List.eq_nil_of_length_eq_zero (by omega)
      rw [h.handed, hnil, List.append_nil, heq]
    · obtain ⟨hclosed, hreset, hnil⟩ := hnew hend
      refine ⟨hclosed, ?_⟩
      rw [← hi.receives.all hreset, ← h.total, hnil, List.append_nil]
  · rw [h.sender]
    exact hi.closed (h.closed ▸ hc)

/-- `recv` takes what it stores off what is to come. -/
lemma residual_recv {c : Conn UInt8} {n : ℕ} {k : Answer} {x : Recv UInt8}
    (h : Delivers c.reader n (k.readv c.stream) x) :
    residual c = x.stored ++ residual ⟨x.reader, if x.called then
      c.stream.drop (k.readv c.stream).bytes.length else c.stream⟩ := by
  cases hcalled : x.called with
  | true => exact residual_read h hcalled
  | false =>
    have hstream := h.stream
    rw [hcalled, if_neg Bool.false_ne_true, List.append_nil] at hstream
    simp only [Complete.residual, Bool.false_eq_true, if_false]
    rw [hstream, List.append_assoc]

/-- `receive` returns 0 at the end of the stream only. -/
lemma eof_of_receive {c : Conn UInt8} {size : ℕ} {k : Answer} {x : Recv UInt8}
    (h : Delivers c.reader size (k.readv c.stream) x)
    (hk : possible (size + bufferSize) c.stream k = true) (hret : x.ret = 0) (hpos : 0 < size) :
    k = .eof ∧ residual ⟨x.reader, if x.called then
      c.stream.drop (k.readv c.stream).bytes.length else c.stream⟩ = [] := by
  obtain ⟨hcalled, heof⟩ := h.eof hret hpos
  obtain rfl := Answer.readv_eq_eof heof
  have hnil : c.stream = [] := List.isEmpty_iff.mp hk
  obtain ⟨-, -, -, hbuf⟩ := eof_of_delivers h hcalled
  refine ⟨rfl, ?_⟩
  simp only [Complete.residual, hbuf, hnil, List.drop_nil, ite_self, List.append_nil]

lemma receive_inv {size : ℕ} {k : Answer} (hi : Inv s) (hmax : size ≤ ssizeMax)
    (h : step s (.receive size k) = some t) : Inv t := by
  simp only [step] at h
  split at h
  · rename_i hguard
    simp only [Bool.and_eq_true, Option.isNone_iff_eq_none] at hguard
    obtain ⟨hidle, hk, hallow⟩ := hguard
    have hd : Delivers s.conn.reader size (k.readv s.conn.stream)
        (receive s.conn.reader size (k.readv s.conn.stream)) :=
      recv_delivers hi.receives.wf hmax (possible_fits hk)
    cases h
    refine took_inv (receive s.conn.reader size (k.readv s.conn.stream)).stored hi
      ⟨rfl, rfl, rfl, rfl, rfl, rfl, ?_, residual_recv hd⟩ hd.wf ?_ fun g hg => ?_
    · simp [handed, hidle]
    · intro k hk
      exact absurd (hidle.symm.trans hk) (by simp)
    · rcases List.mem_append.mp hg with hold | hnew
      · exact .inl hold
      obtain rfl := List.mem_singleton.mp hnew
      refine .inr ⟨fun hfull => ?_, fun hend => ?_⟩
      · simp only at hfull ⊢
        rcases hd.ret with hret | ⟨hret, -⟩ <;> omega
      · simp only [Got.IsEnd, Bool.false_eq_true, if_false] at hend
        obtain ⟨rfl, hnil⟩ := eof_of_receive hd hk hend.1 hend.2
        simp only [St.allows, Bool.and_eq_true, Bool.not_eq_true'] at hallow
        exact ⟨hallow.1, hallow.2, hnil⟩
  · cases h

lemma toInt_le (a : ℕ) : toInt a ≤ a := by
  unfold toInt
  omega

/-- A call that returned its size has stored as much. -/
lemma stored_of_returned {c : Conn UInt8} {k : Call UInt8} {all : List UInt8} {v : ℤ}
    (hi : Complete.Inv k.size all ⟨c, k⟩) (hpc : k.pc = .returned v) (hv : v = k.size) :
    k.stored.length = k.size := by
  have hleft := hi.left
  have hle := toInt_le k.stored.length
  simp only at hleft
  rcases hi.returned v hpc with ⟨hzero, -⟩ | ⟨hpos, -, hret⟩ | ⟨-, hret⟩
  · simp only at hzero
    omega
  · simp only at hpos hret
    omega
  · omega

/-- Where `receiveComplete` stands after a step. -/
lemma received_inv {c : Conn UInt8} {k : Call UInt8} {all : List UInt8} (bytes : List UInt8)
    (hi : Inv s) (hmax : k.size ≤ ssizeMax) (hk : Complete.Inv k.size all ⟨c, k⟩)
    (hstored : k.stored = (s.receiver.map Call.stored).getD [] ++ bytes)
    (hres : residual s.conn = bytes ++ residual c)
    (hend : ∀ v, k.pc = .returned v → v ≠ -1 → v ≠ k.size →
      s.closed = true ∧ s.reset = false ∧ residual c = []) : Inv (s.received c k) := by
  unfold St.received
  split
  · rename_i v hpc
    refine took_inv bytes hi ⟨rfl, rfl, rfl, rfl, rfl, rfl, ?_, hres⟩ hk.wf nofun
      fun g hg => ?_
    · simp [handed, hstored]
    · rcases List.mem_append.mp hg with hold | hnew
      · exact .inl hold
      obtain rfl := List.mem_singleton.mp hnew
      refine .inr ⟨stored_of_returned hk hpc, fun hg => ?_⟩
      simp only [Got.IsEnd, if_true] at hg
      exact hend v hpc hg.1 hg.2
  · rename_i hpc
    refine took_inv bytes hi ⟨rfl, rfl, rfl, rfl, rfl, rfl, ?_, hres⟩ hk.wf ?_
      fun g hg => .inl hg
    · simp [handed, hstored]
    · intro j hj
      cases hj
      have hsplit : k.stored ++ residual c = all := hk.split
      exact ⟨hmax, hpc, hsplit ▸ hk⟩

/-- One step of `receiveComplete` stores the first bytes that were to come. -/
lemma bytes_of_turn {u v : Complete.St UInt8} {l : Complete.Label} (h : Turn u v l) :
    ∃ bytes, v.call.stored = u.call.stored ++ bytes ∧
      residual u.conn = bytes ++ residual v.conn := by
  cases h with
  | more bytes _ _ _ hrest hcall => exact ⟨bytes, by rw [hcall]; rfl, hrest⟩
  | eof hfound hrest hcall => exact ⟨[], by rw [hcall]; simp, by rw [hfound, hrest]; rfl⟩
  | wait hrest hcall => exact ⟨[], by rw [hcall]; simp, by rw [hrest]; rfl⟩
  | failed _ hrest hcall => exact ⟨[], by rw [hcall]; simp, by rw [hrest]; rfl⟩
  | poll hconn hcall => exact ⟨[], by rw [hcall, polled_stored]; simp, by rw [hconn]; rfl⟩

/-- The loop is left with the whole size. -/
lemma returned_of_loop {k : Call UInt8} {v : ℤ} (h : (loop k).pc = .returned v)
    (hmax : k.size ≤ ssizeMax) : v = k.size := by
  by_cases hzero : k.sizeLeft = 0
  · simp only [loop, hzero, ne_eq, not_true_eq_false, if_false, Pc.returned.injEq] at h
    rw [← h, toSsize_eq hmax]
  · simp [loop, hzero] at h

/-- Only the end of the stream makes `receiveComplete` return something else than the size or
-1. -/
lemma eof_of_turn {u w : Complete.St UInt8} {l : Complete.Label} {v : ℤ} (h : Turn u w l)
    (hmax : u.call.size ≤ ssizeMax) (hpc : ∀ v, u.call.pc ≠ .returned v)
    (hret : w.call.pc = .returned v) (hfail : v ≠ -1) (hfull : v ≠ u.call.size) :
    (∃ e, l = .read .eof e) ∧ residual w.conn = [] := by
  cases h with
  | eof _ hrest _ => exact ⟨⟨_, rfl⟩, hrest⟩
  | more bytes _ _ _ _ hcall =>
    rw [hcall] at hret
    exact absurd (returned_of_loop hret hmax) hfull
  | wait _ hcall =>
    rw [hcall] at hret
    cases hret
  | failed _ _ hcall =>
    rw [hcall] at hret
    cases hret
    exact absurd rfl hfail
  | poll _ hcall =>
    rw [hcall] at hret
    unfold polled at hret
    split at hret
    · exact absurd hret (hpc v)
    split at hret
    · cases hret
      exact absurd rfl hfail
    · exact absurd (returned_of_loop hret hmax) hfull

lemma receiveComplete_inv {size : ℕ} (hi : Inv s) (hmax : size ≤ ssizeMax)
    (h : step s (.receiveComplete size) = some t) : Inv t := by
  simp only [step] at h
  split at h
  · rename_i hidle
    rw [Option.isNone_iff_eq_none] at hidle
    cases h
    have hk := (Complete.start_inv hmax hi.receives.wf).1
    refine received_inv (k := receiveComplete size) [] hi hmax hk ?_ rfl ?_
    · rw [hidle]
      rfl
    · intro v hpc _ hfull
      exact absurd (returned_of_loop hpc hmax) hfull
  · cases h

lemma receiving_inv {l : Complete.Label} (hi : Inv s) (h : step s (.receiving l) = some t) :
    Inv t := by
  simp only [step] at h
  split at h
  · cases h
  rename_i k hk
  split at h
  · rename_i hallow
    obtain ⟨u, hu, rfl⟩ := Option.map_eq_some_iff.mp h
    obtain ⟨hmax, hpc, hki⟩ := hi.receives.busy k hk
    have hui := (Complete.step_inv hmax hki hu).1
    have hleft : k.stored.length + k.sizeLeft = k.size := hki.left
    obtain ⟨-, hturn⟩ := turn_of_step hki.wf (by simp only; omega)
      (fun hrecv => hki.loop (.inl hrecv)) hu
    obtain ⟨bytes, hstored, hres⟩ := bytes_of_turn hturn
    have hsize : u.call.size = k.size := hui.size_eq
    refine received_inv bytes hi (by omega) (hsize ▸ hui) ?_ hres ?_
    · rw [hk]
      exact hstored
    · intro v hret hfail hfull
      rw [hsize] at hfull
      obtain ⟨⟨e, rfl⟩, hnil⟩ := eof_of_turn hturn hmax hpc hret hfail hfull
      simp only [St.allowsRead, St.allows, Bool.and_eq_true, Bool.not_eq_true'] at hallow
      exact ⟨hallow.1, hallow.2, hnil⟩
  · cases h

/-! ### Runs -/

lemma reset_inv {n : ℕ} (hi : Inv s) (h : step s (.reset n) = some t) : Inv t := by
  cases h
  have hr := hi.receives
  have hless : residual { s.conn with stream := s.conn.stream.take n } <+: residual s.conn :=
    (List.prefix_append_right_inj _).mpr (List.take_prefix n _)
  refine ⟨⟨hi.sends.kept, hi.sends.all, hi.sends.busy⟩,
    ⟨hr.wf, ?_, nofun, fun k hk => ?_, hr.full, hr.ended⟩, hi.closed⟩
  · exact ((List.prefix_append_right_inj _).mpr hless).trans hr.kept
  · obtain ⟨hmax, hpc, hki⟩ := hr.busy k hk
    exact ⟨hmax, hpc, inv_restream hki hpc⟩

lemma close_inv (hi : Inv s) (h : step s .close = some t) : Inv t := by
  simp only [step] at h
  split at h
  · rename_i hidle
    cases h
    have hr := hi.receives
    refine ⟨⟨hi.sends.kept, hi.sends.all, hi.sends.busy⟩,
      ⟨hr.wf, hr.kept, hr.all, hr.busy, hr.full, fun g hg hend => ?_⟩, fun _ => ?_⟩
    · exact ⟨rfl, (hr.ended g hg hend).2⟩
    · exact Option.isNone_iff_eq_none.mp hidle
  · cases h

lemma step_inv (hi : Inv s) (hl : Proper s l) (h : step s l = some t) : Inv t := by
  cases l with
  | sendBlocks mem blocks =>
    obtain ⟨hfailed, hcount, htotal⟩ := hl
    simp only [step] at h
    split at h
    · rename_i hguard
      simp only [Bool.and_eq_true, Option.isNone_iff_eq_none, Bool.not_eq_true'] at hguard
      cases h
      exact begin_inv hi (Sending.sendBlocks_inv hcount htotal) rfl hguard.1 hguard.2 hfailed
    · cases h
  | sendBlock mem pBlock size =>
    obtain ⟨hfailed, hsize⟩ := hl
    simp only [step] at h
    split at h
    · rename_i hguard
      simp only [Bool.and_eq_true, Option.isNone_iff_eq_none, Bool.not_eq_true'] at hguard
      cases h
      exact begin_inv hi (Sending.sendBlock_inv hsize) rfl hguard.1 hguard.2 hfailed
    · cases h
  | sending l => exact sending_inv hi h
  | close => exact close_inv hi h
  | reset n => exact reset_inv hi h
  | receive size k => exact receive_inv hi hl h
  | receiveComplete size => exact receiveComplete_inv hi hl h
  | receiving l => exact receiving_inv hi h

lemma start_inv (buffer : List UInt8) (hbuf : buffer.length = bufferSize) :
    Inv (start buffer hbuf) := by
  have hempty : residual (start buffer hbuf).conn = [] := rfl
  refine ⟨⟨List.prefix_rfl, fun _ _ => rfl, nofun⟩,
    ⟨⟨Nat.le_refl _, Nat.zero_le _⟩, ?_, fun _ => ?_, nofun, nofun, nofun⟩, fun _ => rfl⟩
  · rw [hempty]
    exact List.prefix_rfl
  · rw [hempty]
    rfl

lemma inv_of_run (buffer : List UInt8) (hbuf : buffer.length = bufferSize) {ls : List Label}
    (h : run step (start buffer hbuf) ls = some s)
    (hok : Meets step Proper (start buffer hbuf) ls) :
    Inv s :=
  run_inv_of_meets (fun _ _ _ hu hl ht => step_inv hu hl ht) (start_inv buffer hbuf) hok h

/-- A message of three bytes goes in two parts, and `receiveComplete` has to wait for the second
one. Another message has two blocks, goes at once and is received at once. -/
def twoMessages : List Label :=
  [.sendBlock (fun addr => addr.toUInt8) 0 3, .sending (.block (.send (.ok 2))), .receiveComplete 3,
    .receiving (.read (.data 2) .other), .receiving (.read .error .again),
    .sending (.block (.send (.ok 1))), .sendBlocks (fun addr => addr.toUInt8) [⟨8, 1⟩, ⟨5, 2⟩],
    .receiving (.poll .ready), .receiving (.read (.data 1) .other),
    .sending (.blocks (.sendmsg (.ok 3))), .receive 3 (.data 3)]

lemma twoMessages_proper : Meets step Proper
    (start (List.replicate bufferSize 0) List.length_replicate) twoMessages := by
  have hsize : 3 ≤ ssizeMax := by decide
  refine meets_step ⟨rfl, hsize⟩ rfl <| meets_step trivial rfl <| meets_step hsize rfl <|
    meets_step trivial rfl <| meets_step trivial rfl <| meets_step trivial rfl <|
    meets_step ⟨rfl, by decide, by decide⟩ rfl <| meets_step trivial rfl <|
    meets_step trivial rfl <| meets_step trivial rfl <| meets_step hsize rfl trivial

/-- **Framing.** As long as the calls of the receiver ask for the lengths of the messages, in order,
and return these, the areas that they fill are the messages. -/
theorem framing (buffer : List UInt8) (hbuf : buffer.length = bufferSize) {ls : List Label}
    (h : run step (start buffer hbuf) ls = some s) (hok : Meets step Proper (start buffer hbuf) ls)
    {n : ℕ} (hsizes : (s.got.take n).map Got.size = (s.msgs.take n).map List.length)
    (hfull : ∀ g ∈ s.got.take n, g.retVal = g.size) :
    (s.got.take n).map Got.stored = s.msgs.take n := by
  have hi := inv_of_run buffer hbuf h hok
  have hlen : ((s.got.take n).map Got.stored).map List.length =
      (s.msgs.take n).map List.length := by
    rw [← hsizes, List.map_map]
    refine List.map_congr_left fun g hg => ?_
    exact hi.receives.full g (List.mem_of_mem_take hg) (hfull g hg)
  have hcount := congrArg List.length hlen
  simp only [List.length_map] at hcount
  have htake : s.msgs.take ((s.got.take n).map Got.stored).length = s.msgs.take n := by
    rw [List.length_map, hcount, List.length_take]
    exact (List.take_eq_take_min ..).symm
  have hprefix : ((s.got.take n).map Got.stored).flatten <+: s.msgs.flatten := by
    have hsplit : (s.got.map Got.stored).flatten =
        ((s.got.take n).map Got.stored).flatten ++ ((s.got.drop n).map Got.stored).flatten := by
      rw [← List.flatten_append, ← List.map_append, List.take_append_drop]
    have hhanded : handed s ++ residual s.conn <+: s.msgs.flatten :=
      hi.receives.kept.trans hi.sends.kept
    rw [handed, hsplit, List.append_assoc, List.append_assoc] at hhanded
    exact (List.prefix_append _ _).trans hhanded
  rw [← htake] at hlen ⊢
  exact eq_take_of_flatten hlen hprefix

theorem framing_twoMessages :
    ∃ s, run step (start (List.replicate bufferSize 0) List.length_replicate) twoMessages =
      some s ∧ s.got.length = 2 ∧ (s.got.take 2).map Got.stored = s.msgs.take 2 :=
  ⟨_, rfl, rfl,
    framing (n := 2) _ List.length_replicate rfl twoMessages_proper rfl (by decide)⟩

end Hbm.Conversation
