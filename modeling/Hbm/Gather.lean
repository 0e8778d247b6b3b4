import Hbm.SendBlock

/-!
Gathering send equals sending the concatenation.
-/

namespace Hbm.Gather

open Hbm.Size Hbm.Blocks Hbm.Syscall Hbm.Run Hbm.SendBlocks

/-- The places in the loop, each with what is still to be taken off the blocks. -/
def loopOffset : Pc → Option ℕ
  | .sendmsg => some 0
  | .reorganize remainingOffset => some remainingOffset
  | .poll => some 0
  | _ => none

/-- What holds in every state `sendBlocks` reaches. -/
structure Gathers (mem : Memory) (msg : List UInt8) (s : St) : Prop where
  sent : s.accepted <+: msg
  /-- `pBlockPos` stays on a block -/
  within : s.pc ≠ .outOfBounds ∧ ∀ off, loopOffset s.pc = some off →
    s.pBlockPos < s.blocks.length ∨ msg = [] ∧ s.pc = .sendmsg
  loop : ∀ off, loopOffset s.pc = some off →
    s.blockCount = (s.blocks.drop s.pBlockPos).length ∧
    sizes (s.blocks.drop s.pBlockPos) = s.totalBytesRemaining + off ∧
    s.accepted ++ (concat mem (s.blocks.drop s.pBlockPos)).drop off = msg
  returned : ∀ retVal, s.pc = .returned retVal → Verdict msg s.accepted retVal

section

variable {mem : Memory} {msg : List UInt8} {s : St}

lemma At.loop (h : At mem msg s s.pc) {off : ℕ} (hoff : loopOffset s.pc = some off) :
    Loop mem msg s off ∧ (0 < s.totalBytesRemaining ∨ msg = [] ∧ s.pc = .sendmsg) := by
  rcases hpc : s.pc with _ | off' | _ | _ | _ <;> rw [hpc] at h hoff <;> cases hoff
  · refine ⟨h.1, ?_⟩
    by_cases hmsg : 0 < msg.length
    · exact Or.inl (h.2 hmsg)
    · exact Or.inr ⟨List.eq_nil_of_length_eq_zero (by omega), rfl⟩
  · exact ⟨h.1, Or.inl h.2⟩
  · exact ⟨h.1, Or.inl h.2⟩

lemma Inv.gathers (hi : Inv mem msg s) : Gathers mem msg s := by
  have hat := hi.at_pc
  refine ⟨?_, ⟨fun hpc => ?_, fun off hoff => ?_⟩, fun off hoff => ?_, fun retVal hpc => ?_⟩
  · rcases hpc : s.pc with _ | off | _ | retVal | _ <;> rw [hpc] at hat
    · exact hat.1.sent
    · exact hat.1.sent
    · exact hat.1.sent
    · exact hat.sent
    · exact hat.elim
  · rw [hpc] at hat
    exact hat
  · obtain ⟨hloop, hpos⟩ := At.loop hat hoff
    exact hpos.imp_left hloop.within
  · obtain ⟨hloop, -⟩ := At.loop hat hoff
    have hcount := hloop.count
    exact ⟨by rw [List.length_drop]; omega, hloop.sizes, hloop.rest⟩
  · rw [hpc] at hat
    exact hat

end

/-- **Gathering send equals sending the concatenation.** At every moment the kernel has a prefix
of the concatenation, the loop over the blocks stays inside the array, and the value returned
says whether everything was sent. The overload for a list starts in the same state, and on
success one block with the concatenation is sent as the same bytes. -/
theorem sendBlocks_gathers (mem : Memory) {blocks : List DataBlock} {ls : List Label} {s : St}
    (hcount : blocks.length < sizeMod) (htotal : sizes blocks ≤ ssizeMax)
    (h : run (step mem) (start blocks) ls = some s) :
    Gathers mem (concat mem blocks) s ∧ startList blocks = start blocks ∧
      ∀ (mem' : Memory) (pBlock : ℕ) (ls' : List SendBlock.Label) (t : SendBlock.St),
        load mem' pBlock (sizes blocks) = concat mem blocks →
        run (SendBlock.step mem') (SendBlock.start pBlock (sizes blocks)) ls' = some t →
        t.pc = .returned → t.retVal = sizes blocks → s.pc = .returned (sizes blocks) →
        t.accepted = concat mem blocks ∧ s.accepted = concat mem blocks := by
  have hi := inv_of_run hcount htotal h
  have hlen : ((concat mem blocks).length : ℤ) = sizes blocks := by rw [concat_length]
  refine ⟨Inv.gathers hi, startList_eq blocks, fun mem' pBlock ls' t hload ht htpc htret hspc => ?_⟩
  have hti := SendBlock.inv_of_run htotal ht
  unfold SendBlock.Inv at hti
  rw [htpc, hload] at hti
  have hsi := hi.at_pc
  rw [hspc] at hsi
  exact ⟨hti.complete (by rw [htret, hlen]), hsi.complete hlen.symm⟩

def threeBlocks : List DataBlock := [⟨0, 2⟩, ⟨7, 0⟩, ⟨10, 3⟩]

/-- The first `sendmsg` ends inside the third block, behind an empty one. -/
def partialSends : List Label :=
  [.sendmsg (.ok 3), .reorganize, .reorganize, .reorganize, .poll (.failed .intr), .poll .ready,
    .sendmsg (.failed .again), .reorganize, .poll .ready, .sendmsg (.ok 2)]

/-- The same bytes in one buffer at 100, sent in two parts with an interruption between them. -/
def joined : Memory := fun n => [0, 1, 10, 11, 12].getD (n - 100) 0

def twoSends : List SendBlock.Label := [.send (.ok 2), .send (.failed .intr), .send (.ok 3)]

theorem sendBlocks_gathers_partial :
    ∃ s t, run (step UInt8.ofNat) (start threeBlocks) partialSends = some s ∧
      run (SendBlock.step joined) (SendBlock.start 100 5) twoSends = some t ∧
      Gathers UInt8.ofNat (concat UInt8.ofNat threeBlocks) s ∧
      s.accepted = [0, 1, 10, 11, 12] ∧ t.accepted = [0, 1, 10, 11, 12] := by
  have hrun : run (step UInt8.ofNat) (start threeBlocks) partialSends = some _ := rfl
  have hjoined : run (SendBlock.step joined) (SendBlock.start 100 5) twoSends = some _ := rfl
  have hmsg : concat UInt8.ofNat threeBlocks = [0, 1, 10, 11, 12] := by decide +kernel
  obtain ⟨hgathers, -, hagree⟩ :=
    sendBlocks_gathers UInt8.ofNat (by decide) (by decide) hrun
  have hsame := hagree joined 100 twoSends _ (by decide +kernel) hjoined (by decide +kernel)
    (by decide +kernel) (by decide +kernel)
  rw [hmsg] at hsame
  exact ⟨_, _, hrun, hjoined, hgathers, hsame.2, hsame.1⟩

end Hbm.Gather
