import Hbm.SendBlocks

/-!
What `sendBlocks` leaves in the caller's array.

The array is the loop's working state. A block is written only where a partial `sendmsg` ended
inside it, and then it is shorter for good; so the array is as before exactly when every answer
of `sendmsg` ended between two blocks.
-/

namespace Hbm.CallersArray

open Hbm.Size Hbm.Blocks Hbm.Run Hbm.SendBlocks

/-- `n` bytes are the first blocks, with no part of another one. -/
def Boundary (blocks : List DataBlock) (n : ℕ) : Prop := ∃ j, n = sizes (blocks.take j)

/-- What the kernel has taken with this answer ends between two blocks. -/
def Whole (blocks : List DataBlock) (s : St) : Label → Prop
  | .sendmsg (.ok n) => Boundary blocks (s.accepted.length + n)
  | _ => True

lemma sizes_append (bs cs : List DataBlock) : sizes (bs ++ cs) = sizes bs + sizes cs := by
  simp [sizes]

lemma sizes_take_add_drop (bs : List DataBlock) (n : ℕ) :
    sizes (bs.take n) + sizes (bs.drop n) = sizes bs := by
  rw [← sizes_append, List.take_append_drop]

lemma sizes_set {bs : List DataBlock} {i : ℕ} {b : DataBlock} (b' : DataBlock)
    (h : bs[i]? = some b) :
    sizes (bs.set i b') + b.size = sizes bs + b'.size := by
  induction bs generalizing i with
  | nil => cases h
  | cons c bs ih =>
    cases i with
    | zero =>
      cases h
      rw [List.set_cons_zero, sizes_cons, sizes_cons]
      omega
    | succ i =>
      have hset := ih (i := i) h
      rw [List.set_cons_succ, sizes_cons, sizes_cons]
      omega

lemma sizes_take_mono (bs : List DataBlock) {i j : ℕ} (h : i ≤ j) :
    sizes (bs.take i) ≤ sizes (bs.take j) := by
  obtain ⟨k, rfl⟩ := Nat.exists_eq_add_of_le h
  rw [List.take_add, sizes_append]
  exact Nat.le_add_right _ _

lemma sizes_take_succ {bs : List DataBlock} {i : ℕ} {b : DataBlock} (h : bs[i]? = some b) :
    sizes (bs.take (i + 1)) = sizes (bs.take i) + b.size := by
  rw [List.take_add_one, h, sizes_append]
  rfl

lemma set_self {bs : List DataBlock} {i : ℕ} {b : DataBlock} (h : bs[i]? = some b) :
    bs.set i b = bs := by
  obtain ⟨hlt, rfl⟩ := List.getElem?_eq_some_iff.mp h
  exact List.set_getElem_self hlt

/-- Behind the first part of a block there is no boundary until its end. -/
lemma not_boundary {bs : List DataBlock} {i off : ℕ} {b : DataBlock} (h : bs[i]? = some b)
    (hpos : 0 < off) (hlt : off < b.size) : ¬ Boundary bs (sizes (bs.take i) + off) := by
  rintro ⟨j, hj⟩
  rcases Nat.lt_or_ge i j with hij | hji
  · have hmono := sizes_take_mono bs (show i + 1 ≤ j from hij)
    rw [sizes_take_succ h] at hmono
    omega
  · have hmono := sizes_take_mono bs hji
    omega

variable {mem : Memory} {blocks : List DataBlock} {s t : St} {l : Label}

/-- The array is as it was, and what has been sent ends between two blocks. -/
def Kept (blocks : List DataBlock) (s : St) : Prop :=
  s.blocks = blocks ∧ Boundary blocks s.accepted.length

/-- A block that was written is shorter than before, and outside the reorganizing loop what has
been sent ends where the array starts again. -/
structure Shrinks (blocks : List DataBlock) (s : St) : Prop where
  shorter : s.blocks = blocks ∨ sizes s.blocks < sizes blocks
  settled : (∀ off, s.pc ≠ .reorganize off) → s.blocks = blocks → Boundary blocks s.accepted.length

lemma accepted_length {off : ℕ} (h : Loop mem (concat mem blocks) s off)
    (hb : s.blocks = blocks) : s.accepted.length = sizes (blocks.take s.pBlockPos) + off := by
  have hlen := h.length
  have hsizes := h.sizes
  have hsplit := sizes_take_add_drop blocks s.pBlockPos
  rw [concat_length] at hlen
  rw [hb] at hsizes
  omega

lemma boundary_of_loop (h : Loop mem (concat mem blocks) s 0) (hb : s.blocks = blocks) :
    Boundary blocks s.accepted.length :=
  ⟨s.pBlockPos, accepted_length h hb⟩

/-- A step that touches neither the array nor what has been sent. -/
lemma same_step (hs : Shrinks blocks s) (hblocks : t.blocks = s.blocks)
    (haccepted : t.accepted = s.accepted)
    (hsettled : (∀ off, t.pc ≠ .reorganize off) → s.blocks = blocks →
      Boundary blocks s.accepted.length) : Shrinks blocks t ∧ (Kept blocks t ↔ Kept blocks s) := by
  refine ⟨⟨?_, fun hpc hb => ?_⟩, ?_⟩
  · rw [hblocks]
    exact hs.shorter
  · rw [haccepted]
    exact hsettled hpc (hblocks ▸ hb)
  · rw [Kept, hblocks, haccepted, Kept]

lemma sendmsg_step {k : Sent} (hloop : Loop mem (concat mem blocks) s 0) (hs : Shrinks blocks s)
    (hmax : sizes blocks ≤ ssizeMax) (hk : k.possible (offered mem s).length = true) :
    Shrinks blocks (sendmsg mem s k) ∧
      (Kept blocks (sendmsg mem s k) ↔ Kept blocks s ∧ Whole blocks s (.sendmsg k)) := by
  have hsettled := boundary_of_loop hloop
  cases k with
  | failed e =>
    have hsame : Shrinks blocks (sendmsg mem s (.failed e)) ∧
        (Kept blocks (sendmsg mem s (.failed e)) ↔ Kept blocks s) := by
      unfold sendmsg written
      simp only
      split
      · exact same_step hs rfl rfl fun _ => hsettled
      split <;> exact same_step hs rfl rfl fun _ => hsettled
    exact ⟨hsame.1, hsame.2.trans (and_iff_left trivial).symm⟩
  | ok n =>
    have hlt := ssizeMax_lt
    have hlen := hloop.length
    have hoffered : (offered mem s).length = s.totalBytesRemaining := by
      rw [hloop.offered, concat_length, hloop.sizes, Nat.add_zero]
    rw [concat_length] at hlen
    simp only [Sent.possible, hoffered, decide_eq_true_eq] at hk
    have haccepted : (s.accepted ++ (offered mem s).take n).length = s.accepted.length + n := by
      rw [List.length_append, List.length_take, hoffered, Nat.min_eq_left hk.1]
    have hkept : ∀ t : St, t.blocks = s.blocks → t.accepted = s.accepted ++ (offered mem s).take n →
        ((∀ off, t.pc ≠ .reorganize off) → n = 0 ∨ n = s.totalBytesRemaining) →
        Shrinks blocks t ∧ (Kept blocks t ↔ Kept blocks s ∧ Whole blocks s (.sendmsg (.ok n))) := by
      intro t hblocks hacc hpc
      refine ⟨⟨by rw [hblocks]; exact hs.shorter, fun hno hb => ?_⟩, ?_⟩
      · rw [hblocks] at hb
        rw [hacc, haccepted]
        rcases hpc hno with rfl | rfl
        · exact hsettled hb
        · exact ⟨blocks.length, by rw [List.take_length, hlen]⟩
      · rw [Kept, hblocks, hacc, haccepted, Kept, Whole]
        exact ⟨fun h => ⟨⟨h.1, hsettled h.1⟩, h.2⟩, fun h => ⟨h.1.1, h.2⟩⟩
    unfold sendmsg written
    simp only
    split
    · rename_i hzero
      exact hkept _ rfl rfl fun _ => Or.inl hzero
    split
    · rename_i hdone
      rw [sub_eq (by omega) hk.1] at hdone
      exact hkept _ rfl rfl fun _ => Or.inr (by omega)
    · exact hkept _ rfl rfl fun hno => absurd rfl (hno n)

lemma reorganize_step {off : ℕ} (hloop : Loop mem (concat mem blocks) s off)
    (hs : Shrinks blocks s) (hmax : sizes blocks ≤ ssizeMax) (hpos : 0 < s.totalBytesRemaining) :
    Shrinks blocks (reorganize s off) ∧ (Kept blocks (reorganize s off) ↔ Kept blocks s) := by
  have hlt := ssizeMax_lt
  obtain ⟨b, hb⟩ : ∃ b, s.blocks[s.pBlockPos]? = some b :=
    ⟨_, List.getElem?_eq_getElem (hloop.within hpos)⟩
  unfold reorganize
  simp only [hb]
  split
  · exact same_step hs rfl rfl fun hno => absurd rfl (hno _)
  · rename_i hin
    have hsize : b.size ≤ sizes blocks := by
      have hlen := hloop.length
      have hsizes := hloop.sizes
      have htaken := hloop.taken
      rw [drop_pos hb, sizes_cons] at hsizes
      rw [concat_length] at hlen
      omega
    have hsub : sub b.size off = b.size - off := sub_eq (by omega) (by omega)
    rw [hsub]
    rcases Nat.eq_zero_or_pos off with rfl | hoff
    · -- nothing to be taken off: the block is written with what it holds
      have hset : s.blocks.set s.pBlockPos ⟨b.pData + 0, b.size - 0⟩ = s.blocks := set_self hb
      exact same_step hs hset rfl fun _ => boundary_of_loop hloop
    · have hless := sizes_set ⟨b.pData + off, b.size - off⟩ hb
      simp only at hless
      have hle : sizes s.blocks ≤ sizes blocks := by
        rcases hs.shorter with heq | hshort
        · exact Nat.le_of_eq (congrArg sizes heq)
        · exact Nat.le_of_lt hshort
      have hne : s.blocks.set s.pBlockPos ⟨b.pData + off, b.size - off⟩ ≠ blocks := by
        intro heq
        rw [heq] at hless
        omega
      refine ⟨⟨Or.inr ?_, fun _ heq => absurd heq hne⟩, fun h => absurd h.1 hne, fun h => ?_⟩
      · show sizes (s.blocks.set s.pBlockPos ⟨b.pData + off, b.size - off⟩) < sizes blocks
        omega
      · have hno := not_boundary (h.1 ▸ hb) hoff (by omega)
        rw [← accepted_length hloop h.1] at hno
        exact absurd h.2 hno

lemma poll_step {p : Syscall.Poll} (hloop : Loop mem (concat mem blocks) s 0)
    (hs : Shrinks blocks s) :
    Shrinks blocks (poll s p) ∧ (Kept blocks (poll s p) ↔ Kept blocks s) := by
  have hsettled := boundary_of_loop hloop
  unfold poll
  split
  · exact same_step hs rfl rfl fun _ => hsettled
  split
  · exact same_step hs rfl rfl fun _ => hsettled
  split <;> exact same_step hs rfl rfl fun _ => hsettled

/-- One step keeps the array exactly when the answer ends between two blocks. -/
lemma step_kept (hmax : sizes blocks ≤ ssizeMax) (hi : Inv mem (concat mem blocks) s)
    (hs : Shrinks blocks s) (h : step mem s l = some t) :
    Shrinks blocks t ∧ (Kept blocks t ↔ Kept blocks s ∧ Whole blocks s l) := by
  have hat := hi.at_pc
  cases l with
  | sendmsg k =>
    simp only [step] at h
    split at h
    · rename_i hk
      cases h
      rw [hk.1] at hat
      exact sendmsg_step hat.1 hs hmax hk.2
    · cases h
  | reorganize =>
    simp only [step] at h
    split at h
    · rename_i hpc
      cases h
      rw [hpc] at hat
      have hstep := reorganize_step hat.1 hs hmax hat.2
      exact ⟨hstep.1, hstep.2.trans (and_iff_left trivial).symm⟩
    · cases h
  | poll p =>
    simp only [step] at h
    split at h
    · rename_i hpc
      cases h
      rw [hpc] at hat
      have hstep := poll_step (p := p) hat.1 hs
      exact ⟨hstep.1, hstep.2.trans (and_iff_left trivial).symm⟩
    · cases h

/-- **The caller's array.** When `sendBlocks` has returned, the array is as before exactly when
every answer of `sendmsg` ended between two blocks; and exactly then a second call with the array
sends the same bytes. -/
theorem array_kept_iff {ls : List Label} (hcount : blocks.length < sizeMod)
    (hmax : sizes blocks ≤ ssizeMax) (h : run (step mem) (start blocks) ls = some s)
    (hret : ∃ retVal, s.pc = .returned retVal) :
    (s.blocks = blocks ↔ Meets (step mem) (Whole blocks) (start blocks) ls) ∧
      (concat mem s.blocks = concat mem blocks ↔ s.blocks = blocks) := by
  have hstart : Kept blocks (start blocks) := ⟨rfl, 0, rfl⟩
  have hkeep : ∀ s l t, Inv mem (concat mem blocks) s ∧ Shrinks blocks s → True →
      step mem s l = some t → Inv mem (concat mem blocks) t ∧ Shrinks blocks t := by
    intro s l t hi _ ht
    exact ⟨step_inv hi.1 (by rwa [concat_length]) ht, (step_kept hmax hi.1 hi.2 ht).1⟩
  have hI : Inv mem (concat mem blocks) (start blocks) ∧ Shrinks blocks (start blocks) :=
    ⟨SendBlocks.start_inv hcount hmax, Or.inl rfl, fun _ _ => hstart.2⟩
  have hshrinks := (run_inv_of_labels (P := fun _ => True) hkeep hI (fun _ _ => trivial) h).2
  have hiff : Kept blocks s ↔ Meets (step mem) (Whole blocks) (start blocks) ls :=
    run_iff_meets hkeep (fun s l t hi _ ht => (step_kept hmax hi.1 hi.2 ht).2) hI hstart
      (fun _ _ => trivial) h
  obtain ⟨retVal, hpc⟩ := hret
  have hno : ∀ off, s.pc ≠ .reorganize off := fun off => by
    rw [hpc]
    nofun
  refine ⟨⟨fun hb => hiff.mp ⟨hb, hshrinks.settled hno hb⟩, fun hok => (hiff.mpr hok).1⟩,
    fun heq => ?_, fun hb => by rw [hb]⟩
  rcases hshrinks.shorter with hb | hshort
  · exact hb
  · have hlen := congrArg List.length heq
    rw [concat_length, concat_length] at hlen
    omega

def twoBlocks : List DataBlock := [⟨0, 2⟩, ⟨10, 3⟩]

/-- The first `sendmsg` ends behind the first block, and the second one would block. -/
def wholeBlocks : List Label :=
  [.sendmsg (.ok 2), .reorganize, .reorganize, .poll .ready, .sendmsg (.failed .again), .reorganize,
    .poll .ready, .sendmsg (.ok 3)]

theorem array_kept_iff_whole :
    ∃ s, run (step UInt8.ofNat) (start twoBlocks) wholeBlocks = some s ∧ s.pc = .returned 5 ∧
      s.blocks = twoBlocks ∧
      Meets (step UInt8.ofNat) (Whole twoBlocks) (start twoBlocks) wholeBlocks := by
  have hrun : run (step UInt8.ofNat) (start twoBlocks) wholeBlocks = some _ := rfl
  have hblocks : [⟨0, 2⟩, ⟨10 + 0, 3⟩] = twoBlocks := rfl
  exact ⟨_, hrun, by decide, hblocks,
    (array_kept_iff (by decide) (by decide) hrun ⟨5, by decide⟩).1.mp hblocks⟩

/-- One byte of the first block goes out before the rest. -/
theorem array_changed :
    ∃ s, run (step UInt8.ofNat) (start twoBlocks)
        [.sendmsg (.ok 1), .reorganize, .poll .ready, .sendmsg (.ok 4)] = some s ∧
      s.pc = .returned 5 ∧ s.blocks = [⟨1, 1⟩, ⟨10, 3⟩] ∧ s.blocks ≠ twoBlocks ∧
      concat UInt8.ofNat s.blocks ≠ concat UInt8.ofNat twoBlocks :=
  ⟨_, rfl, by decide +kernel, by decide +kernel, by decide +kernel, by decide +kernel⟩

end Hbm.CallersArray
