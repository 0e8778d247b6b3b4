import Hbm.WindowsReader

/-!
A data callback under Windows, with the completion port and the buffered reader between it and the
socket.

A read of no bytes is ordered with the socket, and it completes when there is something to receive.
The completion packet makes the event loop call the callback until this returns zero or less. The
next read of no bytes is ordered by `recv`, and only where there was nothing to receive.
-/

namespace Hbm.WindowsDraining

open Hbm.Size Hbm.WindowsReader Hbm.Run
open Hbm.BufferedReader (Reader Wf buffered buffered_length bufferSize bytesLeft_eq recv_delivers
  refill buffered_refill buffered_advance buffered_exhausted)
open Hbm.WindowsBlock (WsaError)

variable {β : Type*}

/-- What happens at a call of `recv` that asks the socket: the read of no bytes is still pending;
there are `n` bytes, or the end of the stream; the data read fails; it would block, and the read of
no bytes is pending afterwards, or fails. Or it would block and bytes or the end come right then, so
that the read of no bytes is done at once, with a completion packet or without, and the data are
read again. -/
inductive Ask (β : Type*)
  | pending
  | read (n : ℕ)
  | failed (e : WsaError)
  | armed
  | unarmed (e : WsaError)
  | again (bytes : List β) (closes packet : Bool) (n : ℕ)
  | againFails (bytes : List β) (closes packet : Bool) (e : WsaError) (count : ℕ)

/-- What the event loop does for the socket. In the callback: whether the last call of `recv` told
it that there is nothing to receive. -/
inductive Phase
  | waiting | serving
  | callback (told : Bool)
  deriving DecidableEq

structure St (β : Type*) where
  reader : Reader β
  held : List β
  sent : List β
  delivered : List β
  /-- the peer has shut down the connection -/
  closed : Bool
  /-- `recv` has reported the end of the stream -/
  ended : Bool
  /-- the read of no bytes is pending -/
  pending : Bool
  /-- completion packets at the port -/
  packets : ℕ
  phase : Phase

inductive Label (β : Type*)
  | arrive (bytes : List β)
  | close
  | dequeue
  | call
  | recv (desiredLen : ℕ) (a : Ask β)
  | ret (r : ℤ)

/-! ### The machine -/

namespace Ask

/-- What comes during the call. -/
def between : Ask β → List β
  | .again bytes _ _ _ | .againFails bytes _ _ _ _ => bytes
  | _ => []

def closes : Ask β → Bool
  | .again _ closes _ _ | .againFails _ closes _ _ _ => closes
  | _ => false

def packets : Ask β → ℕ
  | .again _ _ packet _ | .againFails _ _ packet _ _ => if packet then 1 else 0
  | _ => 0

def arms : Ask β → Bool
  | .armed => true
  | _ => false

/-- Reads and errors in the order in which `recv` makes them; one that is not made does not
matter. -/
def outcome (held : List β) : Ask β → Outcome β
  | .pending => .pending
  | .read n => .reads (.ok (held.take n)) .done (.ok [])
  | .failed e => .reads (.failed e 0) .done (.ok [])
  | .armed => .reads (.failed .wouldBlock 0) (.failed .ioPending) (.ok [])
  | .unarmed e => .reads (.failed .wouldBlock 0) (.failed e) (.ok [])
  | .again bytes _ _ n => .reads (.failed .wouldBlock 0) .done (.ok ((held ++ bytes).take n))
  | .againFails _ _ _ e count => .reads (.failed .wouldBlock 0) .done (.failed e count)

end Ask

namespace St

/-- `recv` gets past the internal buffer. -/
def asks (s : St β) (desiredLen : ℕ) : Bool :=
  sub s.reader.fillLevel s.reader.alreadyRead == 0 && desiredLen != 0

/-- A number of bytes that can be read at once, zero for the end of the stream. -/
def readable (total n : ℕ) (held : List β) (closed : Bool) : Bool :=
  if n = 0 then held.isEmpty && closed else n ≤ total && n ≤ held.length

/-- There is nothing to receive. -/
def empty (s : St β) : Bool := !s.pending && (s.held.isEmpty && !s.closed)

def possible (s : St β) (total : ℕ) : Ask β → Bool
  | .pending => s.pending
  | .read n => !s.pending && readable total n s.held s.closed
  | .failed e => !s.pending && (e != .wouldBlock && e != .ioPending)
  | .armed => s.empty
  | .unarmed e => s.empty && e != .ioPending
  | .again bytes closes _ n =>
    s.empty && ((!bytes.isEmpty || closes) && readable total n bytes closes)
  | .againFails bytes closes _ _ count =>
    s.empty && ((!bytes.isEmpty || closes) && count < 2 ^ 32)

/-- Something to receive completes a read of no bytes. -/
def complete (s : St β) : St β :=
  if s.pending then { s with pending := false, packets := s.packets + 1 } else s

/-- The end of the stream is reported, or the next bytes will be signalled. -/
def tells (desiredLen : ℕ) (x : Recv β) : Bool :=
  x.ret == 0 && desiredLen != 0 || x.lastError == some .ioPending

def received (s : St β) (desiredLen : ℕ) (x : Recv β) : St β :=
  { s with
    reader := x.reader
    delivered := s.delivered ++ x.stored
    ended := s.ended || (x.ret == 0 && desiredLen != 0)
    phase := match s.phase with
      | .callback _ => .callback (tells desiredLen x)
      | p => p }

/-- What a call does to the socket. -/
def asked (s : St β) (a : Ask β) (x : Recv β) : St β :=
  { s with
    held := (s.held ++ a.between).drop (taken x).length
    sent := s.sent ++ a.between
    closed := s.closed || a.closes
    pending := s.pending || a.arms
    packets := s.packets + a.packets }

end St

def step (s : St β) : Label β → Option (St β)
  | .arrive bytes =>
    if s.closed || bytes.isEmpty then none
    else some { s with held := s.held ++ bytes, sent := s.sent ++ bytes }.complete
  | .close => some { s with closed := true }.complete
  | .dequeue =>
    if s.phase = .waiting ∧ 0 < s.packets then
      some { s with packets := s.packets - 1, phase := .serving }
    else none
  | .call => if s.phase = .serving then some { s with phase := .callback false } else none
  | .recv desiredLen a =>
    let x := recv s.reader desiredLen (a.outcome s.held)
    if s.asks desiredLen then
      if s.possible (desiredLen + bufferSize) a then some ((s.asked a x).received desiredLen x)
      else none
    else some (s.received desiredLen x)
  | .ret r =>
    match s.phase with
    | .callback _ => some { s with phase := if 0 < r then .serving else .waiting }
    | _ => none

/-- `setDataCb` has ordered the first read of no bytes. What has come before makes it complete at
once, with a packet. -/
def registered (buffer : List β) (h : buffer.length = bufferSize) (held : List β) (closed : Bool) :
    St β :=
  { reader := ⟨buffer, 0, 0, h⟩
    held := held
    sent := held
    delivered := []
    closed := closed
    ended := false
    pending := held.isEmpty && !closed
    packets := if held.isEmpty && !closed then 0 else 1
    phase := .waiting }

/-- The condition on the steps: only the callback receives, the second data read does not fail, and
the callback returns zero or less only after the last call of `recv` told it that there is nothing
to receive. -/
def Heeds (s : St β) : Label β → Prop
  | .recv desiredLen a =>
    desiredLen < 2 ^ 31 ∧ (∃ told, s.phase = .callback told) ∧
      ∀ b c p e n, a ≠ .againFails b c p e n
  | .ret r => 0 < r ∨ s.phase = .callback true
  | _ => True

/-- What is still to come will be signalled. -/
structure Quiet (s : St β) : Prop where
  buffered : buffered s.reader = []
  armed : s.pending = true ∨ 0 < s.packets ∨
    (s.ended = true ∧ s.closed = true ∧ s.held = [])

structure Inv (s : St β) : Prop where
  wf : Wf s.reader
  sent : s.sent = s.delivered ++ (buffered s.reader ++ s.held)
  /-- a read of no bytes is pending only while there is nothing to receive -/
  pending : s.pending = true → s.held = [] ∧ s.closed = false
  quiet : s.phase = .waiting ∨ s.phase = .callback true → Quiet s

variable {s t : St β} {l : Label β} {desiredLen : ℕ} {a : Ask β} {o : Outcome β}

/-! ### One call of `recv` -/

/-- What is read is handed on or buffered, behind what was buffered. -/
lemma recv_conserves {r : Reader β} (hw : Wf r) (hlen : desiredLen < 2 ^ 31)
    (hfits : o.Fits (desiredLen + bufferSize)) (hok : Checked r desiredLen o) :
    Wf (recv r desiredLen o).reader ∧ buffered r ++ taken (recv r desiredLen o) =
      (recv r desiredLen o).stored ++ buffered (recv r desiredLen o).reader := by
  have hm := recv_matches hw hlen hfits hok
  have hd := recv_delivers (k := o.readv) hw (show desiredLen ≤ ssizeMax by unfold ssizeMax; omega)
    (Outcome.readv_fits hfits)
  refine ⟨hm.wf, ?_⟩
  rw [hm.taken, hm.stored, hm.buffered]
  exact hd.stream

/-- What a call does that the internal buffer serves. -/
structure Served (r : Reader β) (desiredLen : ℕ) (x : Recv β) : Prop where
  wf : Wf x.reader
  stream : buffered r = x.stored ++ buffered x.reader
  quiet : St.tells desiredLen x = false

lemma recv_served (hw : Wf s.reader) (hlen : desiredLen < 2 ^ 31) (h : s.asks desiredLen = false) :
    Served s.reader desiredLen (recv s.reader desiredLen o) := by
  have hle := hw.le
  simp only [St.asks, bytesLeft_eq hw, Bool.and_eq_false_iff, beq_eq_false_iff_ne,
    bne_eq_false_iff_eq] at h
  by_cases h1 : desiredLen ≤ s.reader.fillLevel - s.reader.alreadyRead
  · rw [recv_ready hw hlen h1]
    refine ⟨⟨?_, hw.fill⟩, ?_, ?_⟩
    · show s.reader.alreadyRead + desiredLen ≤ s.reader.fillLevel
      omega
    · simp only [buffered_advance, List.take_append_drop]
    · simp [St.tells]
  · rw [recv_rest hw h1 (by omega)]
    refine ⟨⟨Nat.le_refl _, hw.fill⟩, ?_, ?_⟩
    · simp only [buffered_exhausted, List.append_nil]
    · have hpos : buffered s.reader ≠ [] := by
        rw [← List.length_pos_iff, buffered_length hw]
        omega
      simp [St.tells, hpos]

lemma empty_of_asks (hw : Wf s.reader) (h : s.asks desiredLen = true) :
    buffered s.reader = [] ∧ 0 < desiredLen := by
  simp only [St.asks, bytesLeft_eq hw, Bool.and_eq_true, beq_iff_eq, bne_iff_ne] at h
  refine ⟨List.eq_nil_of_length_eq_zero ?_, Nat.pos_of_ne_zero h.2⟩
  rw [buffered_length hw, h.1]

lemma fits_of_readable {total n : ℕ} {held : List β} {closed : Bool}
    (h : St.readable total n held closed = true) :
    (held.take n).length ≤ total ∧ (held.take n = [] → held = [] ∧ closed = true) := by
  unfold St.readable at h
  split at h
  · rename_i hzero
    simp only [Bool.and_eq_true, List.isEmpty_iff] at h
    simp [h, hzero]
  · rename_i hne
    simp only [Bool.and_eq_true, decide_eq_true_eq] at h
    have hlen : (held.take n).length = n := by rw [List.length_take, Nat.min_eq_left h.2]
    refine ⟨by omega, fun hnil => ?_⟩
    rw [hnil, List.length_nil] at hlen
    omega

/-- What happens at the socket is something that can happen at a call of `recv`. -/
lemma outcome_fits {total : ℕ} (h : s.possible total a = true) :
    (a.outcome s.held).Fits total := by
  have hnil : (WsaRecv.ok ([] : List β)).Fits total := Nat.zero_le _
  cases a with
  | pending => trivial
  | read n =>
    simp only [St.possible, Bool.and_eq_true] at h
    exact ⟨(fits_of_readable h.2).1, hnil⟩
  | again bytes closes packet n =>
    simp only [St.possible, St.empty, Bool.and_eq_true, List.isEmpty_iff] at h
    obtain ⟨⟨-, hheld, -⟩, -, hread⟩ := h
    refine ⟨show 0 < 2 ^ 32 by decide, ?_⟩
    simp only [hheld, List.nil_append]
    exact (fits_of_readable hread).1
  | againFails bytes closes packet e count =>
    simp only [St.possible, Bool.and_eq_true, decide_eq_true_eq] at h
    exact ⟨show 0 < 2 ^ 32 by decide, h.2.2⟩
  | failed | armed | unarmed => exact ⟨show 0 < 2 ^ 32 by decide, hnil⟩

lemma outcome_checked (h : ∀ b c p e n, a ≠ .againFails b c p e n) (r : Reader β)
    (held : List β) : Checked r desiredLen (a.outcome held) := by
  intro _ _ hun
  cases a with
  | againFails b c p e n => exact h b c p e n rfl
  | failed e => cases e <;> exact hun
  | pending | read | armed | unarmed | again => exact hun

/-- What is read comes first of what is held. -/
lemma taken_first (hw : Wf s.reader) (hasks : s.asks desiredLen = true)
    (hok : ∀ b c p e n, a ≠ .againFails b c p e n) :
    taken (recv s.reader desiredLen (a.outcome s.held)) <+: s.held ++ a.between := by
  obtain ⟨hnil, hpos⟩ := empty_of_asks hw hasks
  rw [recv_asks hw hnil hpos]
  cases a with
  | againFails b c p e n => exact absurd rfl (hok b c p e n)
  | read n =>
    simp only [Ask.outcome, taken, filled, WsaRecv.bytes, List.flatMap_singleton, Ask.between,
      List.append_nil]
    exact List.take_prefix _ _
  | again bytes closes packet n =>
    simp only [Ask.outcome, taken, filled, if_true, WsaRecv.bytes, List.flatMap_cons,
      List.flatMap_nil, List.nil_append, List.append_nil, Ask.between]
    exact List.take_prefix _ _
  | failed e => cases e <;> exact List.nil_prefix
  | pending | armed | unarmed => exact List.nil_prefix

/-- What a call of `recv` leaves behind that asks the socket. -/
structure Asked (s : St β) (desiredLen : ℕ) (a : Ask β) (t : St β) : Prop where
  possible : s.possible (desiredLen + bufferSize) a = true
  eq : t = (s.asked a (recv s.reader desiredLen (a.outcome s.held))).received desiredLen
    (recv s.reader desiredLen (a.outcome s.held))

lemma step_recv (h : step s (.recv desiredLen a) = some t) :
    (s.asks desiredLen = true ∧ Asked s desiredLen a t) ∨
      (s.asks desiredLen = false ∧
        t = s.received desiredLen (recv s.reader desiredLen (a.outcome s.held))) := by
  simp only [step] at h
  by_cases hasks : s.asks desiredLen = true
  · rw [if_pos hasks] at h
    split at h
    · exact .inl ⟨hasks, ‹_›, (Option.some.inj h).symm⟩
    · cases h
  · rw [if_neg hasks] at h
    exact .inr ⟨by simpa using hasks, (Option.some.inj h).symm⟩

/-- A data read reports the end of the stream only where it got nothing, and leaves nothing. -/
lemma filled_tells {r : Reader β} {bytes : List β} {reads : List (WsaRecv β)}
    (hlen : desiredLen < 2 ^ 31) (hpos : 0 < desiredLen)
    (hb : bytes.length ≤ desiredLen + bufferSize)
    (h : St.tells desiredLen (filled r desiredLen (.ok bytes) reads) = true) :
    bytes = [] ∧ buffered (filled r desiredLen (.ok bytes) reads).reader = [] ∧
      (filled r desiredLen (.ok bytes) reads).ret = 0 := by
  rw [filled_ok hlen hb] at h ⊢
  have hnil : bytes = [] := by
    simp only [St.tells, Bool.or_eq_true, Bool.and_eq_true, beq_iff_eq, reduceCtorEq,
      or_false] at h
    obtain ⟨hret, -⟩ := h
    refine List.eq_nil_of_length_eq_zero ?_
    split at hret <;> omega
  subst hnil
  refine ⟨rfl, ?_, rfl⟩
  exact (buffered_refill (k := .data []) (Nat.zero_le _)).trans List.drop_nil

/-- A call of `recv` that says so has left nothing to receive. -/
lemma quiet_of_tells (hw : Wf s.reader) (hlen : desiredLen < 2 ^ 31)
    (hasks : s.asks desiredLen = true) (hok : ∀ b c p e n, a ≠ .againFails b c p e n)
    (h : Asked s desiredLen a t)
    (htells : St.tells desiredLen (recv s.reader desiredLen (a.outcome s.held)) = true) :
    Quiet t := by
  obtain ⟨hnil, hpos⟩ := empty_of_asks hw hasks
  obtain ⟨hposs, rfl⟩ := h
  rw [recv_asks hw hnil hpos] at htells ⊢
  cases a with
  | againFails b c p e n => exact absurd rfl (hok b c p e n)
  | pending =>
    exact ⟨hnil, .inl (by simpa [St.received, St.asked, Ask.arms, St.possible] using hposs)⟩
  | armed => exact ⟨rfl, .inl (by simp [St.received, St.asked, Ask.arms])⟩
  | failed e =>
    simp only [St.possible, Bool.and_eq_true, bne_iff_ne] at hposs
    simp [Ask.outcome, failed, St.tells, hposs.2.1, hposs.2.2] at htells
  | unarmed e =>
    simp only [St.possible, Bool.and_eq_true, bne_iff_ne] at hposs
    simp [Ask.outcome, failed, St.tells, hposs.2] at htells
  | read n =>
    simp only [St.possible, Bool.and_eq_true] at hposs
    obtain ⟨hle, hend⟩ := fits_of_readable hposs.2
    obtain ⟨hbytes, hbuf, hret⟩ := filled_tells hlen hpos hle htells
    obtain ⟨hheld, hclosed⟩ := hend hbytes
    refine ⟨hbuf, .inr (.inr ⟨?_, ?_, ?_⟩)⟩
    · simp only [Ask.outcome] at hret ⊢
      simp [St.received, hret, hpos.ne']
    · simp [St.received, St.asked, hclosed]
    · simp [St.received, St.asked, hheld, Ask.between]
  | again bytes closes packet n =>
    simp only [St.possible, St.empty, Bool.and_eq_true, List.isEmpty_iff] at hposs
    obtain ⟨⟨-, hheld, -⟩, -, hread⟩ := hposs
    obtain ⟨hle, hend⟩ := fits_of_readable hread
    simp only [Ask.outcome, hheld, List.nil_append, if_true] at htells ⊢
    obtain ⟨hbytes, hbuf, hret⟩ := filled_tells hlen hpos hle htells
    obtain ⟨hnone, hcloses⟩ := hend hbytes
    refine ⟨hbuf, .inr (.inr ⟨?_, ?_, ?_⟩)⟩
    · simp [St.received, hret, hpos.ne']
    · simp [St.received, St.asked, Ask.closes, hcloses]
    · simp [St.received, St.asked, hheld, Ask.between, hnone]

/-- A read of no bytes is pending after a call only if there is still nothing to receive. -/
lemma nothing_of_pending {total : ℕ} (hi : Inv s) (hposs : s.possible total a = true)
    (h : (s.pending || a.arms) = true) :
    s.held ++ a.between = [] ∧ (s.closed || a.closes) = false := by
  cases a with
  | pending =>
    obtain ⟨hheld, hclosed⟩ := hi.pending hposs
    simp [hheld, hclosed, Ask.between, Ask.closes]
  | armed =>
    simp only [St.possible, St.empty, Bool.and_eq_true, List.isEmpty_iff,
      Bool.not_eq_true'] at hposs
    simp [hposs.2.1, hposs.2.2, Ask.between, Ask.closes]
  | read | failed | unarmed | again | againFails =>
    simp only [Ask.arms, Bool.or_false] at h
    simp [St.possible, St.empty, h] at hposs

lemma asked_sent (hi : Inv s) (hlen : desiredLen < 2 ^ 31) (hasks : s.asks desiredLen = true)
    (hok : ∀ b c p e n, a ≠ .againFails b c p e n) (h : Asked s desiredLen a t) :
    Wf t.reader ∧ t.sent = t.delivered ++ (buffered t.reader ++ t.held) := by
  obtain ⟨hposs, rfl⟩ := h
  obtain ⟨hwf, hstream⟩ := recv_conserves hi.wf hlen (outcome_fits hposs)
    (outcome_checked hok s.reader s.held)
  have htaken := List.prefix_iff_eq_append.mp (taken_first hi.wf hasks hok)
  refine ⟨hwf, ?_⟩
  simp only [St.received, St.asked]
  generalize recv s.reader desiredLen (a.outcome s.held) = x at hstream htaken ⊢
  calc s.sent ++ a.between
      = s.delivered ++ (buffered s.reader ++ (s.held ++ a.between)) := by
        rw [hi.sent, List.append_assoc, List.append_assoc]
    _ = s.delivered ++ (buffered s.reader ++
          (taken x ++ (s.held ++ a.between).drop (taken x).length)) := by rw [htaken]
    _ = s.delivered ++ (x.stored ++ (buffered x.reader ++
          (s.held ++ a.between).drop (taken x).length)) := by
        rw [← List.append_assoc (buffered s.reader), hstream, List.append_assoc]
    _ = _ := (List.append_assoc ..).symm

lemma recv_inv (hi : Inv s) (hl : Heeds s (.recv desiredLen a))
    (h : step s (.recv desiredLen a) = some t) : Inv t := by
  obtain ⟨hlen, ⟨told, hphase⟩, hok⟩ := hl
  rcases step_recv h with ⟨hasks, hasked⟩ | ⟨hasks, rfl⟩
  · obtain ⟨hwf, hsent⟩ := asked_sent hi hlen hasks hok hasked
    refine ⟨hwf, hsent, fun hp => ?_, fun hq => ?_⟩
    · obtain ⟨hposs, rfl⟩ := hasked
      obtain ⟨hheld, hclosed⟩ := nothing_of_pending hi hposs hp
      refine ⟨?_, hclosed⟩
      simp only [St.received, St.asked, hheld, List.drop_nil]
    · refine quiet_of_tells hi.wf hlen hasks hok hasked ?_
      rw [hasked.eq] at hq
      simpa [St.received, St.asked, hphase] using hq
  · obtain ⟨hwf, hstream, htells⟩ := recv_served (o := a.outcome s.held) hi.wf hlen hasks
    refine ⟨hwf, ?_, hi.pending, fun hq => ?_⟩
    · show s.sent = (s.delivered ++ _) ++ _
      rw [hi.sent, hstream, List.append_assoc, List.append_assoc]
      rfl
    · simp [St.received, hphase, htells] at hq

/-! ### The other steps -/

@[simp] lemma complete_reader (s : St β) : s.complete.reader = s.reader := by
  unfold St.complete
  split <;> rfl

@[simp] lemma complete_phase (s : St β) : s.complete.phase = s.phase := by
  unfold St.complete
  split <;> rfl

lemma complete_sent (h : s.sent = s.delivered ++ (buffered s.reader ++ s.held)) :
    s.complete.sent = s.complete.delivered ++ (buffered s.complete.reader ++ s.complete.held) := by
  unfold St.complete
  split <;> exact h

lemma complete_pending (s : St β) : s.complete.pending = false := by
  unfold St.complete
  split
  · rfl
  · exact Bool.eq_false_of_not_eq_true ‹_›

/-- Where a read of no bytes was pending a packet has come. -/
lemma complete_packets (h : s.pending = true ∨ 0 < s.packets) : 0 < s.complete.packets := by
  unfold St.complete
  split
  · exact Nat.succ_pos _
  · exact h.resolve_left ‹_›

lemma arrive_inv {bytes : List β} (hi : Inv s) (h : step s (.arrive bytes) = some t) :
    Inv t := by
  simp only [step] at h
  split at h
  · cases h
  · rename_i hopen
    cases h
    have hsent : s.sent ++ bytes = s.delivered ++ (buffered s.reader ++ (s.held ++ bytes)) := by
      rw [hi.sent, List.append_assoc, List.append_assoc]
    refine ⟨by simpa using hi.wf, complete_sent hsent, fun hp => ?_, fun hq => ?_⟩
    · rw [complete_pending] at hp
      cases hp
    · obtain ⟨hbuf, harm⟩ := hi.quiet (by simpa using hq)
      refine ⟨by simpa using hbuf, .inr (.inl (complete_packets ?_))⟩
      rcases harm with h | h | ⟨-, h, -⟩
      · exact .inl h
      · exact .inr h
      · simp [h] at hopen

lemma close_inv (hi : Inv s) (h : step s .close = some t) : Inv t := by
  cases h
  refine ⟨by simpa using hi.wf, complete_sent hi.sent, fun hp => ?_, fun hq => ?_⟩
  · rw [complete_pending] at hp
    cases hp
  · obtain ⟨hbuf, harm⟩ := hi.quiet (by simpa using hq)
    refine ⟨by simpa using hbuf, ?_⟩
    rcases harm with h | h | ⟨hended, -, hheld⟩
    · exact .inr (.inl (complete_packets (.inl h)))
    · exact .inr (.inl (complete_packets (.inr h)))
    · unfold St.complete
      split
      · exact .inr (.inl (Nat.succ_pos _))
      · exact .inr (.inr ⟨hended, rfl, hheld⟩)

lemma ret_inv {r : ℤ} (hi : Inv s) (hl : Heeds s (.ret r)) (h : step s (.ret r) = some t) :
    Inv t := by
  simp only [step] at h
  split at h
  · cases h
    refine ⟨hi.wf, hi.sent, hi.pending, fun hq => ?_⟩
    by_cases hr : 0 < r
    · simp [hr] at hq
    · obtain ⟨hbuf, harm⟩ := hi.quiet (.inr (hl.resolve_left hr))
      exact ⟨hbuf, harm⟩
  · cases h

lemma step_inv (hi : Inv s) (hl : Heeds s l) (h : step s l = some t) : Inv t := by
  cases l with
  | arrive bytes => exact arrive_inv hi h
  | close => exact close_inv hi h
  | recv desiredLen a => exact recv_inv hi hl h
  | ret r => exact ret_inv hi hl h
  | dequeue | call =>
    simp only [step] at h
    split at h <;> cases h
    exact ⟨hi.wf, hi.sent, hi.pending, by simp⟩

end Hbm.WindowsDraining
