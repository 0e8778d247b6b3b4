import Hbm.Run
import Mathlib.Algebra.Order.Ring.Int
import Mathlib.Logic.Function.Basic

/-!
`EventLoop::execute` on Windows: one loop over the completions, and within it one that calls the
handler of an event for as long as this returns more than zero.

The inner loop looks the handler up in every iteration, and takes the mutex for one iteration only.
Its condition is the result of the last call. An iteration that finds no handler leaves this as it
is.
-/

namespace Hbm.WindowsExecute

open Hbm.Run

/-- A `HANDLE`; `WSA_INVALID_EVENT` is 0. -/
abbrev Handle := ℕ

/-- The error codes that `execute` tells apart. -/
inductive LastError
  | NETNAME_DELETED | OPERATION_ABORTED | other

/-- What `GetQueuedCompletionStatus` gives. -/
inductive Dequeued
  | nothing
  | failed (completionKey : Handle) (lastError : LastError)
  | completed (completionKey : Handle)

inductive Phase
  | waiting
  /-- the head of the inner loop; the mutex is free -/
  | draining (event : Handle) (retval : ℤ)
  /-- a call of the handler from the inner loop -/
  | calling (event : Handle)
  /-- the one call after `NETNAME_DELETED` -/
  | once
  | returned
  | thrown
  deriving DecidableEq

variable {H : Type*}

/-- `results` has what the handlers have returned for the completion at hand, newest first. -/
structure St (H : Type*) where
  eventInfos : Handle → Option H
  phase : Phase
  results : List ℤ

/-- What a thread does to the table. -/
inductive Op (H : Type*)
  | addEvent (event : Handle) (eventHandler : Option H)
  | eraseEvent (event : Handle)

def St.op (s : St H) : Op H → St H
  | .addEvent _ none => s
  | .addEvent event (some h) =>
    { s with eventInfos := Function.update s.eventInfos event (some h) }
  | .eraseEvent event => { s with eventInfos := Function.update s.eventInfos event none }

inductive Label (H : Type*)
  | dequeue (d : Dequeued)
  | lookup
  /-- the handler that is called registers or erases an event -/
  | handler (o : Op H)
  | ret (r : ℤ)
  | throws
  /-- so does another thread -/
  | other (o : Op H)

/-- The outer loop, with a completion. -/
def dequeue (s : St H) : Dequeued → St H
  | .nothing => s
  | .failed completionKey .NETNAME_DELETED =>
    match s.eventInfos completionKey with
    | some _ => { s with phase := .once, results := [] }
    | none => s
  | .failed _ .OPERATION_ABORTED => s
  | .failed _ .other => { s with phase := .returned }
  | .completed completionKey =>
    if completionKey = 0 then { s with phase := .returned }
    else { s with phase := .draining completionKey 0, results := [] }

/-- `while (retval > 0)`. -/
def test (event : Handle) (retval : ℤ) : Phase :=
  if 0 < retval then .draining event retval else .waiting

/-- The handler is called under the mutex, which other threads wait for. -/
def step (s : St H) : Label H → Option (St H)
  | .dequeue d => if s.phase = .waiting then some (dequeue s d) else none
  | .lookup =>
    match s.phase with
    | .draining event retval =>
      match s.eventInfos event with
      | some _ => some { s with phase := .calling event }
      | none => some { s with phase := test event retval }
    | _ => none
  | .handler o =>
    match s.phase with
    | .calling _ | .once => some (s.op o)
    | _ => none
  | .ret r =>
    match s.phase with
    | .calling event => some { s with phase := test event r, results := r :: s.results }
    | .once => some { s with phase := .waiting }
    | _ => none
  | .throws =>
    match s.phase with
    | .calling _ | .once => some { s with phase := .thrown }
    | _ => none
  | .other o =>
    match s.phase with
    | .calling _ | .once => none
    | _ => some (s.op o)

/-- `execute` is entered. -/
def enter (eventInfos : Handle → Option H) : St H := ⟨eventInfos, .waiting, []⟩

/-- The inner loop is at its end after the step, and the step calls no handler. -/
def Ends (s : St H) (l : Label H) : Prop := ∀ t, step s l = some t → t.phase = .waiting

/-- A result that is not more than zero ends the inner loop, and so does an iteration that does not
find the event. -/
def EndsInTime (s : St H) : Label H → Prop
  | .lookup => ∀ event retval, s.phase = .draining event retval → s.eventInfos event = none →
      Ends s .lookup
  | .ret r => r ≤ 0 → Ends s (.ret r)
  | _ => True

/-- The condition on the steps: once the handler has returned more than zero, the event is there
when the loop looks it up again. -/
def StillThere (s : St H) : Label H → Prop
  | .lookup => ∀ event retval, s.phase = .draining event retval → s.results ≠ [] →
      (s.eventInfos event).isSome
  | _ => True

/-! ### The inner loop -/

variable {s t : St H} {l : Label H} {event : Handle} {retval r : ℤ}

lemma test_of_pos (h : 0 < r) : test event r = .draining event r := if_pos h

lemma test_of_nonpos (h : r ≤ 0) : test event r = .waiting := if_neg (not_lt.mpr h)

/-- The condition of the inner loop is the result of the last call, and more than zero; before
the first call it is zero. -/
def Inv (s : St H) : Prop :=
  ∀ event retval, s.phase = .draining event retval →
    s.results = [] ∧ retval = 0 ∨ s.results.head? = some retval ∧ 0 < retval

lemma inv_enter (eventInfos : Handle → Option H) : Inv (enter eventInfos) := nofun

lemma op_keeps (s : St H) (o : Op H) :
    (s.op o).phase = s.phase ∧ (s.op o).results = s.results := by
  cases o with
  | addEvent event h => cases h <;> exact ⟨rfl, rfl⟩
  | eraseEvent event => exact ⟨rfl, rfl⟩

/-- The test keeps the result in the condition. -/
lemma draining_test {event' : Handle} {retval' : ℤ} (h : test event r = .draining event' retval') :
    event' = event ∧ retval' = r ∧ 0 < r := by
  by_cases hr : 0 < r
  · rw [test_of_pos hr] at h
    cases h
    exact ⟨rfl, rfl, hr⟩
  · rw [test_of_nonpos (not_lt.mp hr)] at h
    cases h

lemma inv_dequeue (s : St H) (d : Dequeued) (hs : s.phase = .waiting) : Inv (dequeue s d) := by
  have hnot : Inv s := by
    intro event retval h
    rw [hs] at h
    cases h
  cases d with
  | nothing => exact hnot
  | failed completionKey lastError =>
    cases lastError with
    | NETNAME_DELETED =>
      unfold dequeue
      dsimp only
      split
      · exact nofun
      · exact hnot
    | OPERATION_ABORTED => exact hnot
    | other => exact nofun
  | completed completionKey =>
    unfold dequeue
    dsimp only
    split
    · exact nofun
    · intro event retval h
      cases h
      exact .inl ⟨rfl, rfl⟩

lemma inv_step (hi : Inv s) (h : step s l = some t) : Inv t := by
  have hop : ∀ o, Inv (s.op o) := by
    intro o event retval hphase
    rw [(op_keeps s o).1] at hphase
    rw [(op_keeps s o).2]
    exact hi event retval hphase
  unfold step at h
  cases l with
  | dequeue d =>
    simp only [Option.ite_none_right_eq_some, Option.some.injEq] at h
    obtain ⟨hs, rfl⟩ := h
    exact inv_dequeue s d hs
  | lookup =>
    dsimp only at h
    split at h
    · next event retval hs =>
      split at h <;> cases h
      · exact nofun
      · intro event' retval' ht
        obtain ⟨rfl, rfl, hpos⟩ := draining_test ht
        exact hi event' retval' hs
    · cases h
  | handler o | other o =>
    dsimp only at h
    split at h <;> cases h
    all_goals exact hop o
  | ret r =>
    dsimp only at h
    split at h <;> cases h
    · intro event' retval' ht
      obtain ⟨rfl, rfl, hpos⟩ := draining_test ht
      exact .inr ⟨rfl, hpos⟩
    · exact nofun
  | throws =>
    dsimp only at h
    split at h <;> cases h
    all_goals exact nofun

/-! ### Its end -/

/-- An iteration that does not find the event leaves the loop to its condition. -/
lemma lookup_gone (hs : s.phase = .draining event retval) (hgone : s.eventInfos event = none) :
    step s .lookup = some { s with phase := test event retval } := by
  simp only [step, hs, hgone]

lemma ends_lookup_iff (hs : s.phase = .draining event retval)
    (hgone : s.eventInfos event = none) : Ends s .lookup ↔ retval ≤ 0 := by
  constructor
  · intro h
    have ht := h _ (lookup_gone hs hgone)
    by_contra hpos
    rw [test_of_pos (not_le.mp hpos)] at ht
    cases ht
  · intro hle t ht
    cases (lookup_gone hs hgone).symm.trans ht
    exact test_of_nonpos hle

/-- A result that is not more than zero ends the loop. -/
lemma ends_ret (hr : r ≤ 0) : Ends s (.ret r) := by
  intro t h
  unfold step at h
  dsimp only at h
  split at h <;> cases h
  · exact test_of_nonpos hr
  · rfl

/-- After a result that is more than zero, an iteration that does not find the event leaves
everything as it is. So do any number of them. -/
lemma spins (hs : s.phase = .draining event retval) (hgone : s.eventInfos event = none)
    (hpos : 0 < retval) (n : ℕ) : run step s (List.replicate n .lookup) = some s := by
  have hstep : step s .lookup = some s := by
    rw [lookup_gone hs hgone, test_of_pos hpos, ← hs]
  induction n with
  | zero => rfl
  | succ n ih => exact run_cons_some.mpr ⟨s, hstep, ih⟩

lemma endsInTime_iff_stillThere (hi : Inv s) : EndsInTime s l ↔ StillThere s l := by
  cases l with
  | dequeue | handler | throws | other => exact Iff.rfl
  | ret r => exact iff_of_true ends_ret trivial
  | lookup =>
    refine forall_congr' fun event => forall_congr' fun retval => forall_congr' fun hs => ?_
    have hret : s.results = [] ↔ retval ≤ 0 := by
      rcases hi event retval hs with ⟨hnil, hzero⟩ | ⟨hhead, hpos⟩
      · exact iff_of_true hnil hzero.le
      · refine iff_of_false (fun hnil => ?_) (not_le.mpr hpos)
        rw [hnil] at hhead
        cases hhead
    cases hev : s.eventInfos event with
    | none =>
      rw [ends_lookup_iff hs hev, ← hret]
      simp
    | some h => simp

/-- **The inner loop ends in time** exactly if the event is still there, or there again, whenever
the loop looks it up after the handler has returned more than zero. -/
theorem endsInTime_iff {eventInfos : Handle → Option H} {ls : List (Label H)}
    (h : run step (enter eventInfos) ls = some t) :
    Meets step EndsInTime (enter eventInfos) ls ↔ Meets step StillThere (enter eventInfos) ls :=
  meets_iff_meets (fun _ _ _ hi _ hstep => inv_step hi hstep)
    (fun _ _ _ hi _ => endsInTime_iff_stillThere hi) (inv_enter eventInfos) h

/-- One handler, of event 4. -/
def oneHandler : Handle → Option ℕ := fun event => if event = 4 then some 7 else none

/-- It erases the event when it has no more to do. -/
theorem endsInTime_iff_done : ∃ t,
    run step (enter oneHandler) [.dequeue (.completed 4), .lookup, .ret 1, .lookup,
      .handler (.eraseEvent 4), .ret 0] = some t ∧
    (Meets step EndsInTime (enter oneHandler) [.dequeue (.completed 4), .lookup, .ret 1, .lookup,
        .handler (.eraseEvent 4), .ret 0] ↔
      Meets step StillThere (enter oneHandler) [.dequeue (.completed 4), .lookup, .ret 1, .lookup,
        .handler (.eraseEvent 4), .ret 0]) :=
  ⟨_, rfl, endsInTime_iff rfl⟩

/-- It erases the event and has more to do: the loop goes on for ever. -/
theorem goes_on : ∃ s, run step (enter oneHandler)
      [.dequeue (.completed 4), .lookup, .handler (.eraseEvent 4), .ret 1] = some s ∧
    s.eventInfos 4 = none ∧ (∀ n, run step s (List.replicate n .lookup) = some s) ∧
    ¬ EndsInTime s .lookup := by
  have hrun : run step (enter oneHandler)
      [.dequeue (.completed 4), .lookup, .handler (.eraseEvent 4), .ret 1] = some _ := rfl
  refine ⟨_, hrun, rfl, spins rfl rfl (by decide), fun h => ?_⟩
  have hle := (ends_lookup_iff rfl rfl).mp (h 4 1 rfl rfl)
  exact absurd hle (by decide)

end Hbm.WindowsExecute
