import Hbm.SendBlocks

/-!
Sending one block: `send` is repeated with what is left.
-/

namespace Hbm.SendBlock

open Hbm.Size Hbm.Blocks Hbm.Syscall Hbm.Run Hbm.SendBlocks

inductive Pc
  | send | poll | returned
  deriving DecidableEq

/-- `accepted` records what the kernel took. -/
structure St where
  pDat : ℕ
  bytesLeft : ℕ
  retVal : ℤ
  pc : Pc
  accepted : List UInt8

inductive Label
  | send (k : Sent)
  | poll (p : Poll)

/-- The condition of the loop. -/
def loop (s : St) : St := { s with pc := if 0 < s.bytesLeft then .send else .returned }

def giveUp (s : St) : St := loop { s with bytesLeft := 0, retVal := -1 }

def start (pBlock size : ℕ) : St := loop ⟨pBlock, size, toSsize size, .send, []⟩

def send (mem : Memory) (s : St) : Sent → St
  | .ok n =>
    if 0 < n then
      loop { s with
        pDat := s.pDat + n
        bytesLeft := sub s.bytesLeft n
        accepted := s.accepted ++ load mem s.pDat n }
    else giveUp s -- the connection is lost
  | .failed e =>
    if e = .wouldBlock ∨ e = .again then { s with pc := .poll }
    else if e ≠ .intr then giveUp s
    else loop s

/-- One call in `waitForWritable`. -/
def poll (s : St) (p : Poll) : St :=
  if p = .failed .intr then s
  else if p.ret ≠ 1 then giveUp s
  else loop s

/-- No more is accepted than was offered. -/
def possible (offered : ℕ) : Sent → Bool
  | .ok n => n ≤ offered
  | .failed _ => true

def step (mem : Memory) (s : St) : Label → Option St
  | .send k => if s.pc = .send ∧ possible s.bytesLeft k then some (send mem s k) else none
  | .poll p => if s.pc = .poll then some (poll s p) else none

/-- What holds in the loop: the bytes from `pDat` on are what is left of the message. -/
structure Loop (mem : Memory) (msg : List UInt8) (s : St) : Prop where
  rest : s.accepted ++ load mem s.pDat s.bytesLeft = msg
  retVal : s.retVal = msg.length

/-- What holds at a place in the program. -/
def At (mem : Memory) (msg : List UInt8) (s : St) : Pc → Prop
  | .send => Loop mem msg s ∧ 0 < s.bytesLeft
  | .poll => Loop mem msg s ∧ 0 < s.bytesLeft
  | .returned => Verdict msg s.accepted s.retVal

def Inv (mem : Memory) (msg : List UInt8) (s : St) : Prop := At mem msg s s.pc

variable {mem : Memory} {msg : List UInt8} {s t : St}

lemma loop_inv (h : Loop mem msg s) : Inv mem msg (loop s) := by
  unfold loop
  by_cases hpos : 0 < s.bytesLeft
  · simp only [if_pos hpos]
    exact ⟨⟨h.rest, h.retVal⟩, hpos⟩
  · have hzero : s.bytesLeft = 0 := by omega
    have heq : s.accepted = msg := by
      have hrest := h.rest
      rw [hzero] at hrest
      rwa [show load mem s.pDat 0 = [] from rfl, List.append_nil] at hrest
    simp only [if_neg hpos]
    exact ⟨heq ▸ List.prefix_refl _, fun _ => heq, fun _ hne => absurd h.retVal hne⟩

/-- Giving up in the loop, a part of the message is missing. -/
lemma giveUp_inv (h : Loop mem msg s) (hpos : 0 < s.bytesLeft) : Inv mem msg (giveUp s) := by
  refine ⟨⟨_, h.rest⟩, fun hr => ?_, fun _ _ heq => ?_⟩
  · exact absurd (show (-1 : ℤ) = msg.length from hr) (by omega)
  · have hlen := congrArg List.length h.rest
    rw [List.length_append, load_length, show s.accepted = msg from heq] at hlen
    omega

lemma start_inv {pBlock size : ℕ} (hsize : size ≤ ssizeMax) :
    Inv mem (load mem pBlock size) (start pBlock size) :=
  loop_inv ⟨rfl, by rw [load_length]; exact toSsize_eq hsize⟩

lemma send_inv {k : Sent} (h : Loop mem msg s) (hpos : 0 < s.bytesLeft)
    (hmsg : msg.length ≤ ssizeMax) (hk : possible s.bytesLeft k = true) :
    Inv mem msg (send mem s k) := by
  cases k with
  | ok n =>
    simp only [possible, decide_eq_true_eq] at hk
    unfold send
    simp only
    split
    · have hmax := ssizeMax_lt
      have hlen := congrArg List.length h.rest
      rw [List.length_append, load_length] at hlen
      have hsub : sub s.bytesLeft n = s.bytesLeft - n := sub_eq (by omega) hk
      have hsplit : s.bytesLeft = n + (s.bytesLeft - n) := by omega
      refine loop_inv ⟨?_, h.retVal⟩
      simp only [hsub]
      rw [List.append_assoc, ← load_add, ← hsplit]
      exact h.rest
    · exact giveUp_inv h hpos
  | failed e =>
    unfold send
    simp only
    split
    · exact ⟨⟨h.rest, h.retVal⟩, hpos⟩
    split
    · exact giveUp_inv h hpos
    · exact loop_inv h

lemma poll_inv {p : Poll} (h : Loop mem msg s) (hpos : 0 < s.bytesLeft) (hpc : s.pc = .poll) :
    Inv mem msg (poll s p) := by
  unfold poll
  split
  · unfold Inv
    rw [hpc]
    exact ⟨h, hpos⟩
  split
  · exact giveUp_inv h hpos
  · exact loop_inv h

lemma step_inv {l : Label} (hi : Inv mem msg s) (hmsg : msg.length ≤ ssizeMax)
    (h : step mem s l = some t) : Inv mem msg t := by
  unfold Inv at hi
  cases l with
  | send k =>
    simp only [step] at h
    split at h
    · rename_i hk
      rw [hk.1] at hi
      cases h
      exact send_inv hi.1 hi.2 hmsg hk.2
    · cases h
  | poll p =>
    simp only [step] at h
    split at h
    · rename_i hpc
      rw [hpc] at hi
      cases h
      exact poll_inv hi.1 hi.2 hpc
    · cases h

/-- The invariant of every run. -/
theorem inv_of_run {pBlock size : ℕ} {ls : List Label} (hsize : size ≤ ssizeMax)
    (h : run (step mem) (start pBlock size) ls = some s) :
    Inv mem (load mem pBlock size) s :=
  run_inv (fun _ _ _ hi ht => step_inv hi (by rwa [load_length]) ht) (start_inv hsize) h

end Hbm.SendBlock
