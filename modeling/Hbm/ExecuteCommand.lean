import Mathlib.Data.Int.Notation
import Mathlib.Data.List.Basic

/-!
`executeCommand` with a text for the standard input of the command.

The text is written in as many parts as the pipe takes. An error ends the loop, and the status of
the child is judged as if nothing had happened; the variable that holds it has no value where
`waitpid` fails.
-/

namespace Hbm.ExecuteCommand

variable {β : Type*}

/-- What a call of `write` answers: the pipe has room for `n` bytes, or the call returns -1. -/
inductive Write
  | accepts (n : ℕ)
  | failed

inductive Wait
  | reaped (status : BitVec 32)
  | failed

/-- What the calls answer. `stack` is what `waitStatus` holds without an initial value. -/
structure Calls where
  pipe : ℤ
  fork : ℤ
  readEnd : ℤ
  dup2 : ℤ
  execve : Option ℤ
  writes : List Write
  waitpid : Wait
  stack : BitVec 32

inductive Outcome
  | returns (r : ℤ)
  | replaced
  | exits (status : ℤ)
  deriving DecidableEq

/-- How a process leaves the function, with what it wrote to the pipe, and the status that it took
from the child. -/
structure Run (β : Type*) where
  outcome : Outcome
  written : List β
  reaped : Option (BitVec 32)

def WIFEXITED (status : BitVec 32) : Bool := status &&& 0x7f = 0

def WEXITSTATUS (status : BitVec 32) : BitVec 32 := (status &&& 0xff00) >>> 8

/-- The loop that sends the data, and what goes into the pipe. The calls behind the listed ones take
all that is left. -/
def send : List β → List Write → List β
  | [], _ => []
  | b :: bs, [] => b :: bs
  | _ :: _, .failed :: _ => []
  | b :: bs, .accepts n :: writes => (b :: bs).take n ++ send ((b :: bs).drop n) writes

/-- What `waitStatus` holds behind `waitpid`. -/
def waitStatus (calls : Calls) : BitVec 32 :=
  match calls.waitpid with
  | .reaped status => status
  | .failed => calls.stack

def child (calls : Calls) : Outcome :=
  if calls.readEnd ≠ 0 ∧ calls.dup2 = -1 then .returns (-1)
  else if calls.execve = none then .replaced
  else .exits 1

def judge (waitStatus : BitVec 32) : ℤ :=
  if WIFEXITED waitStatus = false then -1
  else if WEXITSTATUS waitStatus ≠ 0 then -1
  else 0

/-- `execve` answers `none` where it does not return. -/
def executeCommand (calls : Calls) (stdinString : List β) : Run β :=
  if calls.pipe = -1 then ⟨.returns (-1), [], none⟩
  else if calls.fork = -1 then ⟨.returns (-1), [], none⟩
  else if calls.fork = 0 then ⟨child calls, [], none⟩
  else if 0 < calls.fork then
    { outcome := .returns (judge (waitStatus calls))
      written := send stdinString calls.writes
      reaped := match calls.waitpid with
        | .reaped status => some status
        | .failed => none }
  else ⟨.returns (-1), [], none⟩

/-! ### Complete success -/

/-- The child exited with success. -/
def Succeeded (status : BitVec 32) : Prop := WIFEXITED status ∧ WEXITSTATUS status = 0

/-- Every byte was written once and in order, and the child was reaped with success. -/
def Complete (stdinString : List β) (run : Run β) : Prop :=
  run.written = stdinString ∧ ∃ status, run.reaped = some status ∧ Succeeded status

/-- Zero is returned for complete success, and -1 otherwise. -/
def Truthful (stdinString : List β) (run : Run β) : Prop :=
  ∀ r, run.outcome = .returns r →
    r = 0 ∧ Complete stdinString run ∨ r = -1 ∧ ¬ Complete stdinString run

/-- No call of `write` fails as long as there is something left. -/
def AllAccepted : List β → List Write → Prop
  | [], _ => True
  | _ :: _, [] => True
  | _ :: _, .failed :: _ => False
  | b :: bs, .accepts n :: writes => AllAccepted ((b :: bs).drop n) writes

variable {stdinString : List β} {writes : List Write} {calls : Calls}

/-- All of it goes into the pipe exactly if no call fails in time. -/
lemma send_eq_iff : send stdinString writes = stdinString ↔ AllAccepted stdinString writes := by
  induction writes generalizing stdinString with
  | nil => cases stdinString <;> simp [send, AllAccepted]
  | cons w writes ih =>
    cases stdinString with
    | nil => simp [send, AllAccepted]
    | cons b bs =>
      cases w with
      | failed => simp [send, AllAccepted]
      | accepts n =>
        rw [send, AllAccepted, ← ih]
        constructor
        · intro h
          have hparts := List.take_append_drop n (b :: bs)
          exact List.append_cancel_left (h.trans hparts.symm)
        · intro h
          rw [h, List.take_append_drop]

instance (status : BitVec 32) : Decidable (Succeeded status) := inferInstanceAs (Decidable (_ ∧ _))

lemma judge_eq (status : BitVec 32) : judge status = if Succeeded status then 0 else -1 := by
  unfold judge Succeeded
  by_cases hexited : WIFEXITED status = true
  · simp [hexited]
  · simp [hexited]

/-- The function goes its whole way: there is a pipe, and a child, and this is not the child. -/
def Parent (calls : Calls) : Prop := calls.pipe ≠ -1 ∧ 0 < calls.fork

lemma executeCommand_parent (stdinString : List β) (h : Parent calls) :
    (executeCommand calls stdinString).outcome = .returns (judge (waitStatus calls)) ∧
      (Complete stdinString (executeCommand calls stdinString) ↔
        AllAccepted stdinString calls.writes ∧
          ∃ status, calls.waitpid = .reaped status ∧ Succeeded status) := by
  obtain ⟨hpipe, hfork⟩ := h
  have hrun : executeCommand calls stdinString =
      { outcome := .returns (judge (waitStatus calls))
        written := send stdinString calls.writes
        reaped := match calls.waitpid with
          | .reaped status => some status
          | .failed => none } := by
    rw [executeCommand, if_neg hpipe, if_neg (by omega), if_neg (by omega), if_pos hfork]
  rw [hrun, Complete, send_eq_iff]
  refine ⟨rfl, and_congr_right fun _ => exists_congr fun status => and_congr_left fun _ => ?_⟩
  cases calls.waitpid <;> simp

/-- Everywhere else nothing is written, and zero is not returned. -/
lemma truthful_of_not_parent (h : ¬ Parent calls) :
    Truthful stdinString (executeCommand calls stdinString) := by
  have hnone : (executeCommand calls stdinString).reaped = none ∧
      ∀ r, (executeCommand calls stdinString).outcome = .returns r → r = -1 := by
    unfold executeCommand child
    unfold Parent at h
    split_ifs <;> simp_all
  intro r hr
  refine .inr ⟨hnone.2 r hr, ?_⟩
  rintro ⟨-, status, hstatus, -⟩
  rw [hnone.1] at hstatus
  cases hstatus

/-- **Zero is returned for complete success only** if the status that is judged is not a success, or
no call of `write` fails before all is written and the child is reaped; and only then. -/
theorem truthful_iff (calls : Calls) (stdinString : List β) :
    Truthful stdinString (executeCommand calls stdinString) ↔
      ¬ Parent calls ∨ ¬ Succeeded (waitStatus calls) ∨
        AllAccepted stdinString calls.writes ∧ ∃ status, calls.waitpid = .reaped status := by
  by_cases hparent : Parent calls
  · obtain ⟨houtcome, hcomplete⟩ := executeCommand_parent stdinString hparent
    have hword : ∀ status, calls.waitpid = .reaped status → waitStatus calls = status :=
      fun status h => by rw [waitStatus, h]
    have hnot : ¬ ¬ Parent calls := not_not.mpr hparent
    rw [judge_eq] at houtcome
    by_cases hsuccess : Succeeded (waitStatus calls)
    · -- Zero is returned, so that the success has to be complete.
      rw [if_pos hsuccess] at houtcome
      have hreaped : (∃ status, calls.waitpid = .reaped status) ↔
          ∃ status, calls.waitpid = .reaped status ∧ Succeeded status :=
        exists_congr fun status => ⟨fun h => ⟨h, hword status h ▸ hsuccess⟩, fun h => h.1⟩
      rw [or_iff_right hnot, or_iff_right (not_not.mpr hsuccess), hreaped, ← hcomplete]
      constructor
      · intro h
        rcases h 0 houtcome with ⟨-, h⟩ | ⟨hzero, -⟩
        · exact h
        · exact absurd hzero (by decide)
      · intro h r hr
        obtain rfl : 0 = r := Outcome.returns.inj (houtcome.symm.trans hr)
        exact .inl ⟨rfl, h⟩
    · -- Minus one is returned, and a child that was reaped did not succeed.
      rw [if_neg hsuccess] at houtcome
      refine iff_of_true (fun r hr => .inr ⟨?_, fun h => ?_⟩) (.inr (.inl hsuccess))
      · exact (Outcome.returns.inj (houtcome.symm.trans hr)).symm
      · obtain ⟨-, status, hstatus, hs⟩ := hcomplete.mp h
        exact hsuccess (hword status hstatus ▸ hs)
  · exact iff_of_true (truthful_of_not_parent hparent) (.inl hparent)

/-- The pipe breaks behind the third byte, and the command ends with success all the same. -/
theorem truthful_not : ¬ Truthful "bla blub".toList
    (executeCommand ⟨0, 7, 3, 0, none, [.accepts 3, .failed], .reaped 0, 0⟩ "bla blub".toList) := by
  intro h
  obtain ⟨-, hwritten, -⟩ | ⟨hzero, -⟩ := h 0 rfl
  · exact absurd hwritten (by decide)
  · exact absurd hzero (by decide)

end Hbm.ExecuteCommand
