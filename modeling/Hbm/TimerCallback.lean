import Hbm.Timer
import Mathlib.Algebra.Group.Nat.Even

/-!
The latest callback wins: what `process` calls against what the caller has asked for.

`set` looks at the handler that was stored before. An empty callback is stored as it is, and the
next `set` finds it and stores the default handler instead of its own callback. So every second
of a series of empty callbacks is replaced, and a callback after an odd number of them is lost.
-/

namespace Hbm.TimerCallback

open Hbm.Run Hbm.Timer

variable {C : Type*}

/-- The callback of the most recent successful `set`, if it was not cancelled since. -/
def latest : List (Act C) → Option C
  | [] => none
  | .set c :: _ => c
  | .cancel :: _ => none
  | .other :: past => latest past

/-- What an expiration is to do. -/
def wanted (past : List (Act C)) : Effect C :=
  match latest past with
  | none => .nothing
  | some c => .calls c

/-- How many successful `set` calls with an empty callback came last, one after the other. -/
def empties : List (Act C) → ℕ
  | .set none :: past => empties past + 1
  | .other :: past => empties past
  | _ => 0

/-- An even number of empty callbacks came last, up to the callback of the most recent `set`. -/
def EvenEmpties : List (Act C) → Prop
  | .set none :: past => Even (empties past + 1)
  | .set (some _) :: past => Even (empties past)
  | .other :: past => EvenEmpties past
  | _ => True

/-- The handler is empty after an odd number of empty callbacks. -/
lemma isSet_stored (past : List (Act C)) : (stored past).isSet = true ↔ Even (empties past) := by
  induction past with
  | nil => simp [stored, empties, EventHandler.isSet]
  | cons a past ih =>
    rcases a with c | _ | _
    · rcases c with _ | c
      · rw [stored, empties, Nat.even_add_one, ← ih]
        cases (stored past).isSet <;> simp [EventHandler.isSet, EventHandler.ofCallback]
      · rw [stored, show empties (.set (some c) :: past) = 0 from rfl]
        cases (stored past).isSet <;> simp [EventHandler.isSet, EventHandler.ofCallback]
    · simp [stored, empties, EventHandler.isSet]
    · exact ih

/-- The stored handler does what is wanted exactly when the series of empty callbacks is even. -/
lemma call_stored (past : List (Act C)) :
    (stored past).call = wanted past ↔ EvenEmpties past := by
  induction past with
  | nil => simp [stored, wanted, latest, EvenEmpties, EventHandler.call]
  | cons a past ih =>
    rcases a with c | _ | _
    · have hset := isSet_stored past
      rcases c with _ | c
      · rw [stored, EvenEmpties, Nat.even_add_one, ← hset]
        cases (stored past).isSet <;>
          simp [wanted, latest, EventHandler.call, EventHandler.ofCallback]
      · rw [stored, EvenEmpties, ← hset]
        cases (stored past).isSet <;>
          simp [wanted, latest, EventHandler.call, EventHandler.ofCallback]
    · simp [stored, wanted, latest, EvenEmpties, EventHandler.call]
    · exact ih

lemma process_of_pending {s : St C} (hp : s.fd.pending ≠ 0) :
    (process s).1 = some s.eventHandler.call := by
  rw [process, if_neg hp]
  cases s.eventHandler <;> rfl

/-- **The latest callback wins.** After every history of `set`, `cancel`, expirations and
`process`, in any order and inside each other's callbacks: when `process` finds an expiration,
it calls the callback of the most recent successful `set`, and nothing when this was empty or
cancelled, if and only if the series of empty callbacks is even. -/
theorem latest_callback {ls : List (Label C)} {s : St C} (h : run step construct ls = some s)
    (hp : s.fd.pending ≠ 0) :
    (process s).1 = some (wanted (acts ls)) ↔ EvenEmpties (acts ls) := by
  rw [process_of_pending hp, Option.some_inj, eventHandler_eq_stored h, call_stored]

/-- A callback is given, expires and is found. -/
def plain : List (Label Unit) := [.set 50 false (some ()), .expire]

theorem plain_callback : ∃ s, run step construct plain = some s ∧ s.fd.pending ≠ 0 ∧
    ((process s).1 = some (wanted (acts plain)) ↔ EvenEmpties (acts plain)) := by
  have h : run step construct plain = some ⟨.cb (), ⟨⟨.zero, .zero⟩, 1⟩, [], [.set (some ())]⟩ :=
    rfl
  exact ⟨_, h, by decide, latest_callback h (by decide)⟩

/-- One empty callback: the next expiration throws. And the callback given after it is lost. -/
def emptied : List (Label Unit) := [.set 50 false none, .expire]

def replaced : List (Label Unit) := [.set 50 false none, .set 50 false (some ()), .expire]

theorem callback_lost :
    (∃ s, run step construct emptied = some s ∧ (process s).1 = some .badFunctionCall ∧
      wanted (acts emptied) = .nothing) ∧
    (∃ s, run step construct replaced = some s ∧ (process s).1 = some .nothing ∧
      wanted (acts replaced) = .calls ()) :=
  ⟨⟨_, rfl, rfl, rfl⟩, ⟨_, rfl, rfl, rfl⟩⟩

end Hbm.TimerCallback
