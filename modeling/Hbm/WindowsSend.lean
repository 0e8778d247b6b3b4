import Hbm.SendBlock
import Hbm.WindowsBlock

/-!
Gathering send under Windows: one `WSASend` for all blocks, and what it leaves is sent block by
block.

`ssize_t`, the count of the written bytes and the lengths of the buffers have 32 bits. A fatal
error of `WSASend` is returned as its positive number, and one of `sendBlock` is returned as
the size of the block, so the loop goes on behind a gap. Both are taken for a success. The
result is right exactly when there is no such error, or when the connection is found closed
later on.
-/

namespace Hbm.WindowsSend

open Hbm.Size Hbm.Blocks Hbm.Run Hbm.WindowsBlock

inductive Pc
  | wsaSend | blocks
  | block (b : Block)
  | returned (retVal : ℤ)
  deriving DecidableEq

/-- `rest` are the buffers the loop has not come to. -/
structure St where
  rest : List DataBlock
  completeLength : ℕ
  blockSum : ℕ
  bytesWritten : ℕ
  pc : Pc
  trace : Trace
  deriving DecidableEq

inductive Label
  | wsaSend (k : Sent)
  /-- the head of the loop, or the return of `sendBlock` -/
  | next
  | call (c : Call)

def Label.fatal : Label → Bool
  | .wsaSend (.failed e) => e.fatal
  | .call c => c.fatal
  | _ => false

def Label.closed : Label → Bool
  | .call c => c.closed
  | _ => false

/-- `WSABUF`, with a length of 32 bits. -/
def wsaBuf (item : DataBlock) : DataBlock := ⟨item.pData, item.size % 2 ^ 32⟩

def start (blocks : List DataBlock) : St where
  rest := blocks.foldl (fun buffers item => buffers ++ [wsaBuf item]) []
  completeLength := blocks.foldl (fun completeLength item => add completeLength item.size) 0
  blockSum := 0
  bytesWritten := 0
  pc := .wsaSend
  trace := .init

/-- The overload for an array makes a list of it. -/
def startArray (blocks : List DataBlock) : St :=
  start (blocks.foldl (fun dataBlocks item => dataBlocks ++ [⟨item.pData, item.size⟩]) [])

/-- The buffers `WSASend` looks at, their count has 32 bits. -/
def offered (mem : Memory) (s : St) : List UInt8 :=
  concat mem (s.rest.take (s.rest.length % 2 ^ 32))

/-- After `WSASend`. -/
def written (s : St) : St :=
  if s.bytesWritten = s.completeLength then { s with pc := .returned (toInt s.bytesWritten) }
  else { s with pc := .blocks }

def wsaSend (mem : Memory) (s : St) : Sent → St
  | .ok n =>
    written { s with
      bytesWritten := n
      trace := { s.trace with accepted := s.trace.accepted ++ (offered mem s).take n } }
  | .failed e =>
    if e.fatal then { s with pc := .returned e.code, trace := { s.trace with fatal := true } }
    else written s

/-- One turn of the loop over the buffers. -/
def next (s : St) : St :=
  match s.rest with
  | [] => { s with pc := .returned (toInt s.bytesWritten) }
  | item :: rest =>
    let blockSum := add s.blockSum item.size
    if s.bytesWritten < blockSum then
      let bytesRemaining := sub blockSum s.bytesWritten
      let start := sub item.size bytesRemaining
      { s with
        rest, blockSum
        pc := .block (WindowsBlock.start (item.pData + start) bytesRemaining) }
    else { s with rest, blockSum }

/-- `sendBlock` has returned. -/
def blockReturned (s : St) (retVal : ℤ) : St :=
  if 0 < retVal then
    { s with bytesWritten := (s.bytesWritten + retVal.toNat) % 2 ^ 32, pc := .blocks }
  else { s with pc := .returned (-1) }

def step (mem : Memory) (s : St) : Label → Option St
  | .wsaSend k =>
    if s.pc = .wsaSend ∧ k.possible (offered mem s).length then some (wsaSend mem s k) else none
  | .next =>
    match s.pc with
    | .blocks => some (next s)
    | .block b => if b.pc = .returned then some (blockReturned s b.retVal) else none
    | _ => none
  | .call c =>
    match s.pc with
    | .block b =>
      (WindowsBlock.step mem (b, s.trace) c).map fun (b, trace) => { s with pc := .block b, trace }
    | _ => none

/-- What the value returned is to mean: it is positive only for a complete delivery, and it is
negative when there was a fatal error before. -/
structure Faithful (msg : List UInt8) (t : Trace) (retVal : ℤ) : Prop where
  complete : 0 < retVal → retVal = msg.length ∧ t.accepted = msg
  failed : t.fatal = true → t.accepted ≠ msg → retVal < 0

/-- How a call ends: everything is sent, the connection is closed, or something is lost and the
result is positive all the same. -/
inductive Ends (msg : List UInt8) (t : Trace) (retVal : ℤ) : Prop
  | sent (hf : t.fatal = false) (hc : t.closed = false) (hr : retVal = msg.length)
    (ha : t.accepted = msg)
  | closed (hc : t.closed = true) (hr : retVal = -1) (ha : t.accepted.length < msg.length)
  | lost (hf : t.fatal = true) (hc : t.closed = false) (hr : 0 < retVal)
    (hne : ¬ (retVal = msg.length ∧ t.accepted = msg))

variable {mem : Memory} {msg : List UInt8} {t : Trace} {retVal : ℤ} {blocks : List DataBlock}
  {s u : St}

lemma Ends.faithful_iff (h : Ends msg t retVal) :
    Faithful msg t retVal ↔ t.fatal = false ∨ t.closed = true := by
  cases h with
  | sent hf hc hr ha =>
    refine iff_of_true ⟨fun _ => ⟨hr, ha⟩, fun _ hne => absurd ha hne⟩ (.inl hf)
  | closed hc hr ha =>
    exact iff_of_true ⟨fun h => by omega, fun _ _ => by omega⟩ (.inr hc)
  | lost hf hc hr hne =>
    refine iff_of_false (fun h => hne (h.complete hr)) ?_
    simp [hf, hc]

/-- The same bytes accepted mean the same verdict. -/
lemma Ends.verdict_iff (h : Ends msg t retVal) (hok : t.fatal = false ∨ t.closed = true)
    (hmsg : 0 < msg.length) {accepted : List UInt8} {retVal' : ℤ}
    (hv : SendBlocks.Verdict msg accepted retVal') (ha : accepted = t.accepted) :
    retVal = msg.length ↔ retVal' = msg.length := by
  have hlinux : retVal' = msg.length ↔ t.accepted = msg := by
    rw [← ha]
    exact ⟨hv.complete, fun h => by_contra fun hne => hv.strict hmsg hne h⟩
  rw [hlinux]
  cases h with
  | sent hf hc hr ha => exact iff_of_true hr ha
  | closed hc hr ha => exact iff_of_false (by omega) fun h => by simp [h] at ha
  | lost hf hc hr hne => simp [hf, hc] at hok

/-! ### The invariant -/

/-- The loop has summed up the buffers before `rest`. -/
structure Summed (mem : Memory) (msg : List UInt8) (s : St) : Prop where
  sum : s.blockSum + sizes s.rest = msg.length
  rest : concat mem s.rest = msg.drop s.blockSum
  le : s.bytesWritten ≤ msg.length

def At (mem : Memory) (msg : List UInt8) (s : St) : Pc → Prop
  | .wsaSend => concat mem s.rest = msg ∧ s.rest.length < 2 ^ 32 ∧ s.blockSum = 0 ∧
      s.bytesWritten = 0 ∧ s.trace = .init
  | .blocks => Summed mem msg s ∧ s.trace.closed = false ∧ s.blockSum ≤ s.bytesWritten ∧
      Got (msg.take s.bytesWritten) s.trace
  | .block b => Summed mem msg s ∧ s.bytesWritten < s.blockSum ∧
      WindowsBlock.Inv mem (msg.take s.blockSum) (s.blockSum - s.bytesWritten) (b, s.trace)
  | .returned retVal => Ends msg s.trace retVal

structure Inv (mem : Memory) (msg : List UInt8) (s : St) : Prop where
  total : s.completeLength = msg.length
  at_pc : At mem msg s s.pc

lemma summed_start (h : concat mem s.rest = msg) (hsum : s.blockSum = 0)
    (hle : s.bytesWritten ≤ msg.length) : Summed mem msg s := by
  refine ⟨?_, by rw [h, hsum, List.drop_zero], hle⟩
  rw [hsum, ← h, concat_length, Nat.zero_add]

/-- What is accepted when the loop begins. -/
lemma written_inv (htotal : s.completeLength = msg.length) (hsmall : msg.length < 2 ^ 31)
    (hs : Summed mem msg s) (hsum : s.blockSum = 0) (hfatal : s.trace.fatal = false)
    (hclosed : s.trace.closed = false) (haccepted : s.trace.accepted = msg.take s.bytesWritten) :
    Inv mem msg (written s) := by
  unfold written
  by_cases hdone : s.bytesWritten = s.completeLength
  · rw [if_pos hdone]
    have heq : s.bytesWritten = msg.length := hdone.trans htotal
    refine ⟨htotal, .sent hfatal hclosed ?_ ?_⟩
    · rw [toInt_eq (by omega), heq]
    · rw [haccepted, heq, List.take_length]
  · rw [if_neg hdone]
    refine ⟨htotal, ⟨hs.sum, hs.rest, hs.le⟩, hclosed, ?_, ?_⟩
    · simp [hsum]
    · simp [Got, hfatal, haccepted]

lemma wsaSend_inv {k : Sent} (htotal : s.completeLength = msg.length)
    (hsmall : msg.length < 2 ^ 31) (hs : At mem msg s .wsaSend)
    (hk : k.possible (offered mem s).length = true) : Inv mem msg (wsaSend mem s k) := by
  obtain ⟨hrest, hcount, hsum, hwritten, htrace⟩ := hs
  have hoffered : offered mem s = msg := by
    rw [offered, Nat.mod_eq_of_lt hcount, List.take_length, hrest]
  cases k with
  | ok n =>
    have hn : n ≤ msg.length := by
      rw [hoffered] at hk
      simp only [Sent.possible, decide_eq_true_eq] at hk
      omega
    refine written_inv htotal hsmall (summed_start hrest hsum hn) hsum ?_ ?_ ?_
    · simp [htrace, Trace.init]
    · simp [htrace, Trace.init]
    · simp [htrace, Trace.init, hoffered]
  | failed e =>
    by_cases he : e.fatal = true
    · simp only [wsaSend, he, if_true]
      have hcode : 0 < e.code := by simpa [Sent.possible] using hk
      refine ⟨htotal, .lost rfl (by simp [htrace, Trace.init]) hcode ?_⟩
      rintro ⟨hr, ha⟩
      simp only [htrace, Trace.init] at ha
      rw [← ha, List.length_nil] at hr
      omega
    · simp only [wsaSend, he]
      refine written_inv htotal hsmall (summed_start hrest hsum (by omega)) hsum ?_ ?_ ?_
      · simp [htrace, Trace.init]
      · simp [htrace, Trace.init]
      · simp [htrace, Trace.init, hwritten]

/-- The part of a buffer that is still to be sent. -/
lemma take_block {item : DataBlock} {rest : List DataBlock} {sum n : ℕ}
    (h : concat mem (item :: rest) = msg.drop sum) (hsum : sum ≤ n) (hn : n ≤ sum + item.size) :
    msg.take n ++ load mem (item.pData + (n - sum)) (sum + item.size - n) =
      msg.take (sum + item.size) := by
  have hdrop : msg.drop n =
      load mem (item.pData + (n - sum)) (item.size - (n - sum)) ++ concat mem rest := by
    have hpart : (concat mem (item :: rest)).drop (n - sum) =
        concat mem (⟨item.pData + (n - sum), item.size - (n - sum)⟩ :: rest) :=
      concat_drop_part rest (by omega)
    rw [h, List.drop_drop, show sum + (n - sum) = n by omega] at hpart
    exact hpart
  have hlen : sum + item.size - n = item.size - (n - sum) := by omega
  have hsplit : sum + item.size = n + (sum + item.size - n) := by omega
  rw [hsplit, List.take_add, hdrop, hlen, Nat.add_sub_cancel_left,
    List.take_left' (load_length _ _)]

lemma Summed.tail {item : DataBlock} {rest : List DataBlock} (hs : Summed mem msg s)
    (hr : s.rest = item :: rest) : s.blockSum + item.size + sizes rest = msg.length ∧
      concat mem rest = msg.drop (s.blockSum + item.size) := by
  have hsum := hs.sum
  have hrest := hs.rest
  rw [hr] at hsum hrest
  rw [sizes_cons] at hsum
  refine ⟨by omega, ?_⟩
  have hlen : (item.bytes mem).length = item.size := load_length _ _
  rw [← List.drop_drop, ← hrest, concat_cons, List.drop_left' hlen]

/-- A turn of the loop: the end, a buffer that is written already, or a call of `sendBlock`. -/
lemma next_inv (htotal : s.completeLength = msg.length) (hsmall : msg.length < 2 ^ 31)
    (hs : At mem msg s .blocks) (hpc : s.pc = .blocks) : Inv mem msg (next s) := by
  obtain ⟨hsummed, hclosed, hle, hgot⟩ := hs
  have hle' := hsummed.le
  unfold next
  split
  · rename_i hr
    have hsum := hsummed.sum
    rw [hr, sizes_nil] at hsum
    have heq : s.bytesWritten = msg.length := by omega
    rw [heq, List.take_length] at hgot
    refine ⟨htotal, ?_⟩
    show Ends msg s.trace (toInt s.bytesWritten)
    rw [toInt_eq (by omega), heq]
    cases hf : s.trace.fatal with
    | false => exact .sent hf hclosed rfl (hgot.all hf)
    | true =>
      have hlt := hgot.lost hf
      exact .lost hf hclosed (by omega) fun h => by simp [h.2] at hlt
  · rename_i item rest hr
    obtain ⟨hsum, hrest⟩ := hsummed.tail hr
    have hadd : add s.blockSum item.size = s.blockSum + item.size :=
      add_eq (by unfold sizeMod; omega)
    simp only [hadd]
    split
    · rename_i hlt
      have hsub : sub (s.blockSum + item.size) s.bytesWritten =
          s.blockSum + item.size - s.bytesWritten :=
        sub_eq (by unfold sizeMod; omega) (Nat.le_of_lt hlt)
      have hstart : sub item.size (s.blockSum + item.size - s.bytesWritten) =
          s.bytesWritten - s.blockSum := by
        rw [sub_eq (by unfold sizeMod; omega) (by omega)]
        omega
      have hinner : WindowsBlock.Inv mem (msg.take (s.blockSum + item.size))
          (s.blockSum + item.size - s.bytesWritten)
          (WindowsBlock.start (item.pData + (s.bytesWritten - s.blockSum))
            (s.blockSum + item.size - s.bytesWritten), s.trace) := by
        refine start_inv (by omega) hclosed (fun hf => ?_) fun hf => ?_
        · have hlost := hgot.lost hf
          rw [List.length_take] at hlost ⊢
          omega
        · rw [hgot.all hf]
          exact take_block (by rw [← hr]; exact hsummed.rest) hle (Nat.le_of_lt hlt)
      simp only [hsub, hstart]
      exact ⟨htotal, ⟨hsum, hrest, hle'⟩, hlt, hinner⟩
    · rename_i hge
      refine ⟨htotal, ?_⟩
      simp only [hpc]
      exact ⟨⟨hsum, hrest, hle'⟩, hclosed, by simp only; omega, hgot⟩

lemma blockReturned_inv {b : Block} (htotal : s.completeLength = msg.length)
    (hsmall : msg.length < 2 ^ 31) (hs : At mem msg s (.block b)) (hb : b.pc = .returned) :
    Inv mem msg (blockReturned s b.retVal) := by
  obtain ⟨hsummed, hlt, hinv⟩ := hs
  have hsum := hsummed.sum
  simp only [WindowsBlock.Inv, hb, if_true] at hinv
  rcases hinv with ⟨hclosed, hret, hlen⟩ | ⟨hclosed, hret, hgot⟩
  · rw [List.length_take] at hlen
    unfold blockReturned
    rw [hret, if_neg (by omega)]
    exact ⟨htotal, .closed hclosed rfl (by simp only; omega)⟩
  · have hwritten : (s.bytesWritten + b.retVal.toNat) % 2 ^ 32 = s.blockSum := by
      rw [hret]
      omega
    unfold blockReturned
    rw [if_pos (by omega), hwritten]
    exact ⟨htotal, ⟨hsummed.sum, hsummed.rest, by simp only; omega⟩, hclosed, Nat.le_refl _, hgot⟩

lemma inv_step {l : Label} (hs : Inv mem msg s) (hsmall : msg.length < 2 ^ 31)
    (h : step mem s l = some u) : Inv mem msg u := by
  obtain ⟨htotal, hat⟩ := hs
  cases l with
  | wsaSend k =>
    simp only [step] at h
    split at h <;> rename_i hk <;> cases h
    rw [hk.1] at hat
    exact wsaSend_inv htotal hsmall hat hk.2
  | next =>
    simp only [step] at h
    split at h <;> rename_i hpc <;> try cases h
    · rw [hpc] at hat
      exact next_inv htotal hsmall hat hpc
    · split at h <;> rename_i hb <;> cases h
      rw [hpc] at hat
      exact blockReturned_inv htotal hsmall hat hb
  | call c =>
    simp only [step] at h
    split at h <;> rename_i hpc <;> try cases h
    obtain ⟨⟨b, t⟩, hcall, rfl⟩ := Option.map_eq_some_iff.mp h
    rw [hpc] at hat
    obtain ⟨hsummed, hlt, hinv⟩ := hat
    exact ⟨htotal, ⟨hsummed.sum, hsummed.rest, hsummed.le⟩, hlt, WindowsBlock.step_inv hinv hcall⟩

lemma foldl_wsaBuf (done : List DataBlock) (h : ∀ item ∈ blocks, item.size < 2 ^ 32) :
    blocks.foldl (fun buffers item => buffers ++ [wsaBuf item]) done = done ++ blocks := by
  induction blocks generalizing done with
  | nil => simp
  | cons item blocks ih =>
    have hitem : wsaBuf item = item := by
      rw [wsaBuf, Nat.mod_eq_of_lt (h item (by simp))]
    rw [List.foldl_cons, hitem, ih _ fun b hb => h b (by simp [hb])]
    simp

lemma size_le_sizes {item : DataBlock} (h : item ∈ blocks) : item.size ≤ sizes blocks := by
  induction blocks with
  | nil => simp at h
  | cons b blocks ih =>
    rw [sizes_cons]
    rcases List.mem_cons.mp h with rfl | h
    · omega
    · have := ih h
      omega

lemma inv_start (hcount : blocks.length < 2 ^ 32) (htotal : sizes blocks < 2 ^ 31) :
    Inv mem (concat mem blocks) (start blocks) := by
  have hbuffers : (start blocks).rest = blocks :=
    foldl_wsaBuf [] fun item hi => by have := size_le_sizes hi; omega
  have hcomplete : (start blocks).completeLength = sizes blocks := by
    have hfold := @SendBlocks.foldl_add blocks 0 (by unfold sizeMod; omega)
    rwa [Nat.zero_add] at hfold
  refine ⟨by rw [hcomplete, concat_length], ?_⟩
  exact ⟨by rw [hbuffers], by rw [hbuffers]; exact hcount, rfl, rfl, rfl⟩

/-! ### The trace has the answers of all calls -/

@[simp] lemma written_trace (s : St) : (written s).trace = s.trace := by
  unfold written
  split <;> rfl

@[simp] lemma next_trace (s : St) : (next s).trace = s.trace := by
  unfold next
  split
  · rfl
  · dsimp only
    split <;> rfl

@[simp] lemma blockReturned_trace (s : St) (retVal : ℤ) :
    (blockReturned s retVal).trace = s.trace := by
  unfold blockReturned
  split <;> rfl

lemma trace_step {l : Label} (h : step mem s l = some u) :
    u.trace.fatal = (s.trace.fatal || l.fatal) ∧
      u.trace.closed = (s.trace.closed || l.closed) := by
  cases l with
  | wsaSend k =>
    simp only [step] at h
    split at h <;> cases h
    cases k with
    | ok n => simp [wsaSend, Label.fatal, Label.closed]
    | failed e => cases he : e.fatal <;> simp [wsaSend, Label.fatal, Label.closed, he]
  | next =>
    simp only [step] at h
    split at h <;> try cases h
    · simp [Label.fatal, Label.closed]
    · split at h <;> cases h
      simp [Label.fatal, Label.closed]
  | call c =>
    simp only [step] at h
    split at h <;> try cases h
    obtain ⟨⟨b, t⟩, hcall, rfl⟩ := Option.map_eq_some_iff.mp h
    exact WindowsBlock.step_trace hcall

/-- The condition on the answers: no fatal error, unless the connection is found closed. -/
def Recovers (fatal closed : Bool) : Prop := fatal = false ∨ closed = true

/-! ### The results -/

lemma ends_of_run (hcount : blocks.length < 2 ^ 32) (htotal : sizes blocks < 2 ^ 31)
    {ls : List Label} (h : run (step mem) (start blocks) ls = some s)
    (hpc : s.pc = .returned retVal) : Ends (concat mem blocks) s.trace retVal := by
  have hsmall : (concat mem blocks).length < 2 ^ 31 := by rwa [concat_length]
  have hinv : Inv mem (concat mem blocks) s :=
    run_inv (fun _ _ _ hs hl => inv_step hs hsmall hl) (inv_start hcount htotal) h
  have hat := hinv.at_pc
  rwa [hpc] at hat

lemma block_ends_of_run {pBlock size : ℕ} (hsize : size < 2 ^ 31) {ls : List Call} {b : Block}
    (h : run (WindowsBlock.step mem) (WindowsBlock.start pBlock size, .init) ls = some (b, t))
    (hpc : b.pc = .returned) : Ends (load mem pBlock size) t b.retVal := by
  have hinv : WindowsBlock.Inv mem (load mem pBlock size) size (b, t) :=
    run_inv (fun _ _ _ hs hl => WindowsBlock.step_inv hs hl)
      (start_inv hsize rfl (fun h => by cases h) fun _ => rfl) h
  simp only [WindowsBlock.Inv, hpc, if_true] at hinv
  rcases hinv with ⟨hc, hr, ha⟩ | ⟨hc, hr, hgot⟩
  · exact .closed hc hr ha
  · cases hf : t.fatal with
    | false => exact .sent hf hc (by rw [hr, load_length]) (hgot.all hf)
    | true =>
      have hlt := hgot.lost hf
      have hlen : (load mem pBlock size).length = size := load_length _ _
      exact .lost hf hc (by omega) fun h => by simp [h.2] at hlt

lemma trace_of_run {ls : List Label} (h : run (step mem) (start blocks) ls = some s) :
    s.trace.fatal = ls.any Label.fatal ∧ s.trace.closed = ls.any Label.closed := by
  have hf := any_of_run (f := Label.fatal) (g := fun s : St => s.trace.fatal)
    (fun s l t (hl : step mem s l = some t) => (trace_step hl).1) h
  have hc := any_of_run (f := Label.closed) (g := fun s : St => s.trace.closed)
    (fun s l t (hl : step mem s l = some t) => (trace_step hl).2) h
  simpa [start, Trace.init] using And.intro hf hc

lemma block_trace_of_run {pBlock size : ℕ} {ls : List Call} {b : Block}
    (h : run (WindowsBlock.step mem) (WindowsBlock.start pBlock size, .init) ls = some (b, t)) :
    t.fatal = ls.any Call.fatal ∧ t.closed = ls.any Call.closed := by
  have hf := any_of_run (f := Call.fatal) (g := fun s : Block × Trace => s.2.fatal)
    (fun s l t (hl : WindowsBlock.step mem s l = some t) => (step_trace hl).1) h
  have hc := any_of_run (f := Call.closed) (g := fun s : Block × Trace => s.2.closed)
    (fun s l t (hl : WindowsBlock.step mem s l = some t) => (step_trace hl).2) h
  simpa [Trace.init] using And.intro hf hc

lemma startArray_eq (blocks : List DataBlock) : startArray blocks = start blocks := by
  have hcopy : ∀ done : List DataBlock, blocks.foldl
      (fun dataBlocks item => dataBlocks ++ [⟨item.pData, item.size⟩]) done = done ++ blocks := by
    induction blocks with
    | nil => simp
    | cons item blocks ih =>
      intro done
      rw [List.foldl_cons, ih]
      simp
  rw [startArray, hcopy, List.nil_append]

/-- **Success only for complete delivery.** For a total that an `int` can hold, both overloads of
`sendBlocks` and `sendBlock` return a positive number only for a complete delivery and a
negative one after a fatal error if and only if no fatal error or failed `select` comes, or the
connection is found closed. In these runs the verdict is the one of every run of the Linux
version in which the same bytes are accepted. -/
theorem send_faithful (mem : Memory) (hcount : blocks.length < 2 ^ 32)
    (htotal : sizes blocks < 2 ^ 31) :
    startArray blocks = start blocks ∧
    (∀ ls s retVal, run (step mem) (start blocks) ls = some s → s.pc = .returned retVal →
      (Faithful (concat mem blocks) s.trace retVal ↔
        Recovers (ls.any Label.fatal) (ls.any Label.closed)) ∧
      (Recovers (ls.any Label.fatal) (ls.any Label.closed) → 0 < sizes blocks →
        ∀ ls' u retVal', run (SendBlocks.step mem) (SendBlocks.start blocks) ls' = some u →
          u.pc = .returned retVal' → u.accepted = s.trace.accepted →
          (retVal = sizes blocks ↔ retVal' = sizes blocks))) ∧
    ∀ pBlock size ls b t, size < 2 ^ 31 →
      run (WindowsBlock.step mem) (WindowsBlock.start pBlock size, .init) ls = some (b, t) →
      b.pc = .returned →
      (Faithful (load mem pBlock size) t b.retVal ↔
        Recovers (ls.any Call.fatal) (ls.any Call.closed)) ∧
      (Recovers (ls.any Call.fatal) (ls.any Call.closed) → 0 < size →
        ∀ ls' u, run (SendBlock.step mem) (SendBlock.start pBlock size) ls' = some u →
          u.pc = .returned → u.accepted = t.accepted →
          (b.retVal = size ↔ u.retVal = size)) := by
  refine ⟨startArray_eq blocks, fun ls s retVal h hpc => ?_,
    fun pBlock size ls b t hsize h hpc => ?_⟩
  · have hends := ends_of_run hcount htotal h hpc
    obtain ⟨hf, hc⟩ := trace_of_run h
    rw [← hf, ← hc]
    refine ⟨hends.faithful_iff, fun hok hpos ls' u retVal' hu hupc ha => ?_⟩
    have hi := SendBlocks.inv_of_run (by unfold sizeMod; omega) (by unfold ssizeMax; omega) hu
    have hv := hi.at_pc
    rw [hupc] at hv
    have hverdict := hends.verdict_iff hok (by rwa [concat_length]) hv ha
    rwa [concat_length] at hverdict
  · have hends := block_ends_of_run hsize h hpc
    obtain ⟨hf, hc⟩ := block_trace_of_run h
    rw [← hf, ← hc]
    refine ⟨hends.faithful_iff, fun hok hpos ls' u hu hupc ha => ?_⟩
    have hv := SendBlock.inv_of_run (by unfold ssizeMax; omega) hu
    unfold SendBlock.Inv at hv
    rw [hupc] at hv
    have hverdict := hends.verdict_iff hok (by rwa [load_length]) hv ha
    rwa [load_length] at hverdict

def twoBlocks : List DataBlock := [⟨0, 2⟩, ⟨10, 3⟩]

/-- `WSASend` takes one byte, and what is left is sent with a wait in between. -/
def partialSends : List Label :=
  [.wsaSend (.ok 1), .next, .call (.send (.failed .wouldBlock)), .call (.select 1),
    .call (.send (.ok 1)), .next, .next, .call (.send (.ok 3)), .next, .next]

theorem partial_faithful : ∃ s, run (step UInt8.ofNat) (start twoBlocks) partialSends = some s ∧
    s.pc = .returned 5 ∧ s.trace.accepted = [0, 1, 10, 11, 12] ∧
    (Faithful (concat UInt8.ofNat twoBlocks) s.trace 5 ↔
      Recovers (partialSends.any Label.fatal) (partialSends.any Label.closed)) := by
  have hrun : run (step UInt8.ofNat) (start twoBlocks) partialSends = some _ := rfl
  have hpc : (run (step UInt8.ofNat) (start twoBlocks) partialSends).map St.pc =
    some (.returned 5) := by decide +kernel
  rw [hrun] at hpc
  exact ⟨_, hrun, Option.some.inj hpc, by decide +kernel,
    ((send_faithful UInt8.ofNat (by decide) (by decide)).2.1 _ _ _ hrun (Option.some.inj hpc)).1⟩

/-- The connection is reset in `sendBlock`, in `WSASend`, and behind a part of the first of two
blocks: the results are the size, the number of the error and the total. -/
theorem reset_is_success :
    (∃ b t, run (WindowsBlock.step UInt8.ofNat) (WindowsBlock.start 0 3, .init)
        [.send (.failed (.other 10054))] = some (b, t) ∧
      b.pc = .returned ∧ b.retVal = 3 ∧ t.accepted = []) ∧
    (∃ s, run (step UInt8.ofNat) (start twoBlocks) [.wsaSend (.failed (.other 10054))] = some s ∧
      s.pc = .returned 10054 ∧ s.trace.accepted = []) ∧
    (∃ s, run (step UInt8.ofNat) (start twoBlocks)
        [.wsaSend (.ok 1), .next, .call (.send (.failed (.other 10054))), .next, .next,
          .call (.send (.ok 3)), .next, .next] = some s ∧
      s.pc = .returned 5 ∧ s.trace.accepted = [0, 10, 11, 12]) := by
  refine ⟨⟨_, _, rfl, ?_⟩, ⟨_, rfl, ?_⟩, ⟨_, rfl, ?_⟩⟩ <;> decide +kernel

end Hbm.WindowsSend
