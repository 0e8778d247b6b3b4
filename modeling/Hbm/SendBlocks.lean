import Hbm.Blocks
import Hbm.Run

/-!
Gathering send: one `sendmsg` for all blocks, and after a partial one the array of blocks is
reorganized in place and the rest is sent again.

One step is one call of `sendmsg`, one turn of the reorganizing loop, or one call of `poll`. The
reorganizing loop has no bound of its own. The sum of the sizes keeps it inside the array: from
`pBlockPos` on they sum to what is still to be sent and what is still to be taken off.
-/

namespace Hbm.SendBlocks

open Hbm.Size Hbm.Blocks Hbm.Syscall Hbm.Run

/-- What one call of `sendmsg` or `send` answers. -/
inductive Sent
  | ok (n : ℕ)
  | failed (e : Errno)

inductive Pc
  | sendmsg
  | reorganize (remainingOffset : ℕ)
  | poll
  | returned (retVal : ℤ)
  | outOfBounds
  deriving DecidableEq

/-- `blocks` is the caller's array; `accepted` records what the kernel took. -/
structure St where
  blocks : List DataBlock
  blockCount : ℕ
  totalLength : ℕ
  totalBytesRemaining : ℕ
  pBlockPos : ℕ
  pc : Pc
  accepted : List UInt8

inductive Label
  | sendmsg (k : Sent)
  | reorganize
  | poll (p : Poll)

def start (blocks : List DataBlock) : St :=
  let totalLength := blocks.foldl (fun totalLength b => add totalLength b.size) 0
  ⟨blocks, blocks.length, totalLength, totalLength, 0, .sendmsg, []⟩

/-- The overload for a list: the vector gets a copy of every item. -/
def startList (blocks : List DataBlock) : St :=
  start (blocks.foldl (fun dataBlockVector item => dataBlockVector ++ [⟨item.pData, item.size⟩]) [])

/-- The bytes that a call of `sendmsg` offers. -/
def offered (mem : Memory) (s : St) : List UInt8 :=
  concat mem ((s.blocks.drop s.pBlockPos).take s.blockCount)

/-- Nothing is accepted only if nothing was offered. -/
def Sent.possible (offered : ℕ) : Sent → Bool
  | .ok n => n ≤ offered ∧ (n = 0 → offered = 0)
  | .failed _ => true

/-- From `totalBytesRemaining -= bytesWritten` on. -/
def written (s : St) (bytesWritten : ℕ) : St :=
  let totalBytesRemaining := sub s.totalBytesRemaining bytesWritten
  if totalBytesRemaining = 0 then
    { s with
      totalBytesRemaining := totalBytesRemaining
      pc := .returned (toSsize s.totalLength) }
  else
    { s with
      totalBytesRemaining := totalBytesRemaining
      pc := .reorganize bytesWritten }

def sendmsg (mem : Memory) (s : St) : Sent → St
  | .ok n =>
    let s := { s with accepted := s.accepted ++ (offered mem s).take n }
    if n = 0 then { s with pc := .returned 0 } else written s n
  | .failed e =>
    if e ≠ .wouldBlock ∧ e ≠ .again ∧ e ≠ .intr then { s with pc := .returned (-1) }
    else written s 0

def reorganize (s : St) (remainingOffset : ℕ) : St :=
  match s.blocks[s.pBlockPos]? with
  | none => { s with pc := .outOfBounds }
  | some b =>
    if b.size ≤ remainingOffset then
      { s with
        pBlockPos := s.pBlockPos + 1
        blockCount := sub s.blockCount 1
        pc := .reorganize (sub remainingOffset b.size) }
    else
      { s with
        blocks := s.blocks.set s.pBlockPos ⟨b.pData + remainingOffset, sub b.size remainingOffset⟩
        pc := .poll }

/-- One call in `waitForWritable`, and the condition of the outer loop. -/
def poll (s : St) (p : Poll) : St :=
  if p = .failed .intr then s
  else if p.ret ≠ 1 then { s with pc := .returned (-1) }
  else if s.totalBytesRemaining ≠ 0 then { s with pc := .sendmsg }
  else { s with pc := .returned (toSsize s.totalLength) }

def step (mem : Memory) (s : St) : Label → Option St
  | .sendmsg k =>
    if s.pc = .sendmsg ∧ k.possible (offered mem s).length then some (sendmsg mem s k) else none
  | .reorganize =>
    match s.pc with
    | .reorganize remainingOffset => some (reorganize s remainingOffset)
    | _ => none
  | .poll p => if s.pc = .poll then some (poll s p) else none

/-- The blocks from `pBlockPos` on, less the offset still to be taken off them, are what is left
of the message. -/
structure Loop (mem : Memory) (msg : List UInt8) (s : St) (remainingOffset : ℕ) : Prop where
  count : s.blockCount + s.pBlockPos = s.blocks.length
  sizes : sizes (s.blocks.drop s.pBlockPos) = s.totalBytesRemaining + remainingOffset
  rest : s.accepted ++ (concat mem (s.blocks.drop s.pBlockPos)).drop remainingOffset = msg
  taken : remainingOffset ≤ s.accepted.length

/-- The value returned says whether the whole message was sent. -/
structure Verdict (msg accepted : List UInt8) (retVal : ℤ) : Prop where
  sent : accepted <+: msg
  complete : retVal = msg.length → accepted = msg
  strict : 0 < msg.length → retVal ≠ msg.length → accepted ≠ msg

/-- What holds at a place in the program. -/
def At (mem : Memory) (msg : List UInt8) (s : St) : Pc → Prop
  | .sendmsg => Loop mem msg s 0 ∧ (0 < msg.length → 0 < s.totalBytesRemaining)
  | .reorganize remainingOffset => Loop mem msg s remainingOffset ∧ 0 < s.totalBytesRemaining
  | .poll => Loop mem msg s 0 ∧ 0 < s.totalBytesRemaining
  | .returned retVal => Verdict msg s.accepted retVal
  | .outOfBounds => False

structure Inv (mem : Memory) (msg : List UInt8) (s : St) : Prop where
  total : s.totalLength = msg.length
  bound : s.blocks.length < sizeMod
  at_pc : At mem msg s s.pc

variable {mem : Memory} {msg : List UInt8} {s t : St} {off : ℕ}

lemma foldl_add {bs : List DataBlock} {n : ℕ} (h : n + sizes bs < sizeMod) :
    bs.foldl (fun totalLength b => add totalLength b.size) n = n + sizes bs := by
  induction bs generalizing n with
  | nil => rfl
  | cons b bs ih =>
    rw [sizes_cons] at h ⊢
    rw [List.foldl_cons, add_eq (by omega), ih (by omega), Nat.add_assoc]

lemma startList_eq (blocks : List DataBlock) : startList blocks = start blocks := by
  have hcopy : ∀ (bs v : List DataBlock),
      bs.foldl (fun v item => v ++ [⟨item.pData, item.size⟩]) v = v ++ bs := by
    intro bs
    induction bs with
    | nil => simp
    | cons b bs ih => simp [ih]
  rw [startList, hcopy, List.nil_append]

lemma start_inv {blocks : List DataBlock} (hcount : blocks.length < sizeMod)
    (htotal : sizes blocks ≤ ssizeMax) : Inv mem (concat mem blocks) (start blocks) := by
  have hmax := ssizeMax_lt
  have hsum : (start blocks).totalBytesRemaining = sizes blocks := by
    show blocks.foldl _ 0 = _
    rw [foldl_add (by omega), Nat.zero_add]
  have hlen : (concat mem blocks).length = sizes blocks := concat_length blocks
  refine ⟨?_, hcount, ⟨Nat.add_zero _, ?_, rfl, Nat.zero_le _⟩, fun hpos => ?_⟩
  · rw [hlen]
    exact hsum
  · rw [hsum]
    rfl
  · omega

/-- The bytes sent and those remaining make up the message. -/
lemma Loop.length (h : Loop mem msg s off) :
    s.accepted.length + s.totalBytesRemaining = msg.length := by
  have hlen := congrArg List.length h.rest
  rw [List.length_append, List.length_drop, concat_length, h.sizes] at hlen
  omega

lemma Loop.sent (h : Loop mem msg s off) : s.accepted <+: msg := ⟨_, h.rest⟩

lemma Loop.within (h : Loop mem msg s off) (hpos : 0 < s.totalBytesRemaining) :
    s.pBlockPos < s.blocks.length := by
  by_contra hge
  have hsizes := h.sizes
  rw [List.drop_eq_nil_of_le (by omega), sizes_nil] at hsizes
  omega

lemma Loop.offered (h : Loop mem msg s off) :
    offered mem s = concat mem (s.blocks.drop s.pBlockPos) := by
  have hcount := h.count
  rw [SendBlocks.offered, List.take_of_length_le (by rw [List.length_drop]; omega)]

/-- The function gives up. -/
lemma Loop.verdict (h : Loop mem msg s off) (hpos : 0 < msg.length → 0 < s.totalBytesRemaining) :
    Verdict msg s.accepted (-1) := by
  refine ⟨h.sent, fun hr => by omega, fun hlen _ heq => ?_⟩
  have := h.length
  have := hpos hlen
  rw [heq] at *
  omega

/-- The function is done. -/
lemma Loop.done (h : Loop mem msg s off) (hzero : s.totalBytesRemaining = 0) (retVal : ℤ)
    (hret : 0 < msg.length → retVal = msg.length) : Verdict msg s.accepted retVal := by
  have hlen := h.length
  have heq : s.accepted = msg := h.sent.eq_of_length (by omega)
  exact ⟨h.sent, fun _ => heq, fun hpos hne => absurd (hret hpos) hne⟩

/-- The bytes taken are still at the front of the blocks. -/
lemma Loop.accept (h : Loop mem msg s 0) (hmsg : msg.length ≤ ssizeMax) {n : ℕ}
    (hn : n ≤ s.totalBytesRemaining) :
    Loop mem msg
      { s with
        accepted := s.accepted ++ (SendBlocks.offered mem s).take n
        totalBytesRemaining := sub s.totalBytesRemaining n } n := by
  have hmax := ssizeMax_lt
  have hlen := h.length
  have hsub : sub s.totalBytesRemaining n = s.totalBytesRemaining - n := sub_eq (by omega) hn
  refine ⟨h.count, ?_, ?_, ?_⟩
  · have hsizes := h.sizes
    simp only [hsub]
    omega
  · simp only [h.offered, List.append_assoc, List.take_append_drop]
    exact h.rest
  · have hsizes := h.sizes
    simp only [List.length_append, List.length_take, h.offered, concat_length]
    omega

/-- The kernel takes nothing. -/
lemma Loop.refuse (h : Loop mem msg s 0) (hmsg : msg.length ≤ ssizeMax) :
    Loop mem msg { s with totalBytesRemaining := sub s.totalBytesRemaining 0 } 0 := by
  have h0 := h.accept hmsg (Nat.zero_le s.totalBytesRemaining)
  simpa only [List.take_zero, List.append_nil] using h0

lemma written_inv {n : ℕ} (htotal : s.totalLength = msg.length) (hbound : s.blocks.length < sizeMod)
    (hmsg : msg.length ≤ ssizeMax)
    (h : Loop mem msg { s with totalBytesRemaining := sub s.totalBytesRemaining n } n) :
    Inv mem msg (written s n) := by
  unfold written
  by_cases hzero : sub s.totalBytesRemaining n = 0
  · simp only [if_pos hzero]
    refine ⟨htotal, hbound, h.done hzero _ fun _ => ?_⟩
    rw [htotal, toSsize_eq hmsg]
  · simp only [if_neg hzero]
    exact ⟨htotal, hbound, ⟨h.count, h.sizes, h.rest, h.taken⟩, Nat.pos_of_ne_zero hzero⟩

lemma sendmsg_inv {k : Sent} (hi : Inv mem msg s) (hmsg : msg.length ≤ ssizeMax)
    (hpc : s.pc = .sendmsg) (hk : k.possible (offered mem s).length = true) :
    Inv mem msg (sendmsg mem s k) := by
  have hat := hi.at_pc
  rw [hpc] at hat
  obtain ⟨hloop, hpos⟩ := hat
  have hoffered : (offered mem s).length = s.totalBytesRemaining := by
    rw [hloop.offered, concat_length, hloop.sizes, Nat.add_zero]
  cases k with
  | ok n =>
    simp only [Sent.possible, hoffered, decide_eq_true_eq] at hk
    obtain ⟨hn, hn0⟩ := hk
    have haccept := hloop.accept hmsg hn
    unfold sendmsg
    by_cases hzero : n = 0
    · simp only [if_pos hzero]
      refine ⟨hi.total, hi.bound, ?_⟩
      have hleft := hn0 hzero
      have hsub : sub s.totalBytesRemaining n = 0 := by rw [hleft, hzero]; rfl
      exact haccept.done hsub 0 fun hlen => absurd (hpos hlen) (by omega)
    · simp only [if_neg hzero]
      exact written_inv hi.total hi.bound hmsg haccept
  | failed e =>
    unfold sendmsg
    simp only
    split
    · exact ⟨hi.total, hi.bound, hloop.verdict hpos⟩
    · exact written_inv hi.total hi.bound hmsg (hloop.refuse hmsg)

/-- The block at `pBlockPos` is in front of the others. -/
lemma drop_pos {b : DataBlock} (hb : s.blocks[s.pBlockPos]? = some b) :
    s.blocks.drop s.pBlockPos = b :: s.blocks.drop (s.pBlockPos + 1) := by
  obtain ⟨hlt, rfl⟩ := List.getElem?_eq_some_iff.mp hb
  exact List.drop_eq_getElem_cons hlt

/-- A block that was sent completely is left behind. -/
lemma Loop.skip {b : DataBlock} (h : Loop mem msg s off) (hmsg : msg.length ≤ ssizeMax)
    (hbound : s.blocks.length < sizeMod) (hb : s.blocks[s.pBlockPos]? = some b)
    (hle : b.size ≤ off) :
    Loop mem msg { s with pBlockPos := s.pBlockPos + 1, blockCount := sub s.blockCount 1 }
      (sub off b.size) := by
  have hmax := ssizeMax_lt
  have hlen := h.length
  have htaken := h.taken
  have hcount := h.count
  have hlt := (List.getElem?_eq_some_iff.mp hb).1
  have hsub : sub off b.size = off - b.size := sub_eq (by omega) hle
  have hsub' : sub s.blockCount 1 = s.blockCount - 1 := sub_eq (by omega) (by omega)
  rw [hsub]
  refine ⟨?_, ?_, ?_, Nat.le_trans (Nat.sub_le _ _) htaken⟩
  · simp only [hsub']
    omega
  · have hsizes := h.sizes
    rw [drop_pos hb, sizes_cons] at hsizes
    simp only
    omega
  · calc s.accepted ++ (concat mem (s.blocks.drop (s.pBlockPos + 1))).drop (off - b.size)
        = s.accepted ++ (concat mem (b :: s.blocks.drop (s.pBlockPos + 1))).drop off := by
          rw [concat_drop_block _ hle]
      _ = s.accepted ++ (concat mem (s.blocks.drop s.pBlockPos)).drop off := by rw [drop_pos hb]
      _ = msg := h.rest

/-- The first bytes of a block that was sent in part are taken off it. -/
lemma Loop.cut {b : DataBlock} (h : Loop mem msg s off) (hmsg : msg.length ≤ ssizeMax)
    (hb : s.blocks[s.pBlockPos]? = some b) (hlt : off < b.size) :
    Loop mem msg { s with
      blocks := s.blocks.set s.pBlockPos ⟨b.pData + off, sub b.size off⟩ } 0 := by
  have hmax := ssizeMax_lt
  have hlen := h.length
  have htaken := h.taken
  have hsizes := h.sizes
  rw [drop_pos hb, sizes_cons] at hsizes
  have hin := (List.getElem?_eq_some_iff.mp hb).1
  have hsub : sub b.size off = b.size - off := sub_eq (by omega) (Nat.le_of_lt hlt)
  have hdrop : (s.blocks.set s.pBlockPos ⟨b.pData + off, sub b.size off⟩).drop s.pBlockPos =
      ⟨b.pData + off, b.size - off⟩ :: s.blocks.drop (s.pBlockPos + 1) := by
    rw [List.drop_eq_getElem_cons (by rwa [List.length_set]), List.getElem_set_self, hsub,
      List.drop_set_of_lt (Nat.lt_succ_self _)]
  refine ⟨?_, ?_, ?_, Nat.zero_le _⟩
  · rw [List.length_set]
    exact h.count
  · rw [hdrop, sizes_cons]
    simp only
    omega
  · rw [hdrop, List.drop_zero]
    calc s.accepted ++ concat mem (⟨b.pData + off, b.size - off⟩ :: s.blocks.drop (s.pBlockPos + 1))
        = s.accepted ++ (concat mem (b :: s.blocks.drop (s.pBlockPos + 1))).drop off := by
          rw [concat_drop_part _ (Nat.le_of_lt hlt)]
      _ = s.accepted ++ (concat mem (s.blocks.drop s.pBlockPos)).drop off := by rw [drop_pos hb]
      _ = msg := h.rest

lemma reorganize_inv (hi : Inv mem msg s) (hmsg : msg.length ≤ ssizeMax)
    (hpc : s.pc = .reorganize off) : Inv mem msg (reorganize s off) := by
  have hat := hi.at_pc
  rw [hpc] at hat
  obtain ⟨hloop, hpos⟩ := hat
  obtain ⟨b, hb⟩ : ∃ b, s.blocks[s.pBlockPos]? = some b :=
    ⟨_, List.getElem?_eq_getElem (hloop.within hpos)⟩
  unfold reorganize
  simp only [hb]
  split
  · rename_i hle
    have hskip := hloop.skip hmsg hi.bound hb hle
    exact ⟨hi.total, hi.bound, ⟨hskip.count, hskip.sizes, hskip.rest, hskip.taken⟩, hpos⟩
  · rename_i hlt
    have hcut := hloop.cut hmsg hb (Nat.lt_of_not_le hlt)
    exact ⟨hi.total, by simpa only [List.length_set] using hi.bound,
      ⟨hcut.count, hcut.sizes, hcut.rest, hcut.taken⟩, hpos⟩

lemma poll_inv {p : Poll} (hi : Inv mem msg s) (hpc : s.pc = .poll) : Inv mem msg (poll s p) := by
  have hat := hi.at_pc
  rw [hpc] at hat
  obtain ⟨hloop, hpos⟩ := hat
  unfold poll
  split
  · exact hi
  split
  · exact ⟨hi.total, hi.bound, hloop.verdict fun _ => hpos⟩
  rw [if_pos (Nat.pos_iff_ne_zero.mp hpos)]
  exact ⟨hi.total, hi.bound, ⟨hloop.count, hloop.sizes, hloop.rest, hloop.taken⟩, fun _ => hpos⟩

lemma step_inv {l : Label} (hi : Inv mem msg s) (hmsg : msg.length ≤ ssizeMax)
    (h : step mem s l = some t) : Inv mem msg t := by
  cases l with
  | sendmsg k =>
    simp only [step] at h
    split at h
    · rename_i hk
      cases h
      exact sendmsg_inv hi hmsg hk.1 hk.2
    · cases h
  | reorganize =>
    simp only [step] at h
    split at h
    · rename_i hpc
      cases h
      exact reorganize_inv hi hmsg hpc
    · cases h
  | poll p =>
    simp only [step] at h
    split at h
    · rename_i hpc
      cases h
      exact poll_inv hi hpc
    · cases h

/-- The invariant of every run. -/
theorem inv_of_run {blocks : List DataBlock} {ls : List Label} (hcount : blocks.length < sizeMod)
    (htotal : sizes blocks ≤ ssizeMax) (h : run (step mem) (start blocks) ls = some s) :
    Inv mem (concat mem blocks) s :=
  run_inv (fun _ _ _ hi ht => step_inv hi (by rwa [concat_length]) ht)
    (start_inv hcount htotal) h

end Hbm.SendBlocks
