import Hbm.Run
import Mathlib.Tactic.Cases
import Mathlib.Tactic.Lemma
import Mathlib.Algebra.Order.Ring.Int

/-!
The notifier: `notify` adds one to the counter of an eventfd, `process` reads the counter away
and replays it, one callback for each count.

`notify` may come at any moment, from any thread and from inside the callback. The event loop
catches what the callback throws, and the counts that were read and not yet replayed are gone
with the frame of `process`. The header promises one callback for each notification, so this
is exact: nothing is dropped as long as only the last callback of a replay throws.
-/

namespace Hbm.Notifier

open Hbm.Run

/-- The largest value an eventfd counts to. -/
def counterMax : ℕ := 2 ^ 64 - 2

/-- Where the event loop is in `process`. -/
inductive Pc (C : Type*)
  /-- outside, with what the last call returned -/
  | out (ret : Option ℤ)
  | replay (i eventCount : ℕ)
  /-- in the callback of one count, `none` for the default callback -/
  | callback (i eventCount : ℕ) (h : Option C)

/-- `notified`, `read` and `invoked` only record what has happened. -/
structure St (C : Type*) where
  counter : ℕ
  eventHandler : Option C
  pc : Pc C
  notified : ℕ
  read : ℕ
  invoked : ℕ

inductive Label (C : Type*)
  | set (eventHandler : Option C)
  | notify
  /-- the event loop calls `process`, and the read is interrupted or not -/
  | process (intr : Bool)
  /-- the head of the replay loop -/
  | next
  | ret
  | throws

variable {C : Type*}

/-- A notifier after its constructor. -/
def construct : St C := ⟨0, none, .out none, 0, 0, 0⟩

def set (s : St C) (eventHandler : Option C) : St C := { s with eventHandler }

/-- The write fails with `EAGAIN` when the counter is full. -/
def notify (s : St C) : ℤ × St C :=
  if s.counter < counterMax then
    (8, { s with counter := s.counter + 1, notified := s.notified + 1 })
  else (-1, s)

/-- `process` up to the loop. An empty counter is `EAGAIN`. -/
def process (s : St C) (intr : Bool) : St C :=
  if intr ∨ s.counter = 0 then { s with pc := .out (some (-1)) }
  else { s with counter := 0, pc := .replay 0 s.counter, read := s.read + s.counter }

def step (s : St C) : Label C → Option (St C)
  | .set h => some (set s h)
  | .notify => some (notify s).2
  | .process intr =>
    match s.pc with
    | .out _ => some (process s intr)
    | _ => none
  | .next =>
    match s.pc with
    | .replay i n =>
      if i < n then
        some { s with pc := .callback i n s.eventHandler, invoked := s.invoked + 1 }
      else some { s with pc := .out (some 0) }
    | _ => none
  | .ret =>
    match s.pc with
    | .callback i n _ => some { s with pc := .replay (i + 1) n }
    | _ => none
  | .throws =>
    match s.pc with
    | .callback _ _ (some _) => some { s with pc := .out none }
    | _ => none

/-- The counts that have been read and not yet replayed. -/
def Pc.left : Pc C → ℕ
  | .out _ => 0
  | .replay i n => n - i
  | .callback i n _ => n - (i + 1)

/-- No notification is dropped: every count read has had its callback or still gets it. -/
def Complete (s : St C) : Prop := s.invoked + s.pc.left = s.read

/-- A callback that throws is the last one of its replay. -/
def LastThrows (s : St C) : Label C → Prop
  | .throws => s.pc.left = 0
  | _ => True

/-- What holds whatever the callbacks do: a count is in the eventfd or has been read, and no
count has two callbacks. -/
structure Counted (s : St C) : Prop where
  notified : s.notified = s.read + s.counter
  once : s.invoked + s.pc.left ≤ s.read
  inside : ∀ i n h, s.pc = .callback i n h → i < n

lemma counted_construct : Counted (construct (C := C)) :=
  ⟨rfl, Nat.le_refl 0, fun _ _ _ h => nomatch h⟩

variable {s t : St C} {l : Label C}

/-- What a step can do. -/
inductive Step (s : St C) : Label C → St C → Prop
  | set (h : Option C) : Step s (.set h) { s with eventHandler := h }
  | full (hc : counterMax ≤ s.counter) : Step s .notify s
  | notify (hc : s.counter < counterMax) :
    Step s .notify { s with counter := s.counter + 1, notified := s.notified + 1 }
  | again (r : Option ℤ) (intr : Bool) (hpc : s.pc = .out r) (hi : intr ∨ s.counter = 0) :
    Step s (.process intr) { s with pc := .out (some (-1)) }
  | read (r : Option ℤ) (hpc : s.pc = .out r) (hc : s.counter ≠ 0) : Step s (.process false)
    { s with counter := 0, pc := .replay 0 s.counter, read := s.read + s.counter }
  | invoke (i n : ℕ) (hpc : s.pc = .replay i n) (hi : i < n) : Step s .next
    { s with pc := .callback i n s.eventHandler, invoked := s.invoked + 1 }
  | done (i n : ℕ) (hpc : s.pc = .replay i n) (hi : n ≤ i) : Step s .next
    { s with pc := .out (some 0) }
  | ret (i n : ℕ) (h : Option C) (hpc : s.pc = .callback i n h) : Step s .ret
    { s with pc := .replay (i + 1) n }
  | throws (i n : ℕ) (c : C) (hpc : s.pc = .callback i n (some c)) : Step s .throws
    { s with pc := .out none }

lemma step_cases (h : step s l = some t) : Step s l t := by
  cases l with
  | set eh => cases h; exact .set eh
  | notify =>
    simp only [step, notify] at h
    split at h <;> rename_i hc <;> cases h
    · exact .notify hc
    · exact .full (by omega)
  | process intr =>
    simp only [step, process] at h
    split at h
    · rename_i r hpc
      split at h <;> rename_i hc <;> cases h
      · exact .again r intr hpc hc
      · cases intr with
        | true => simp at hc
        | false => exact .read r hpc (by simpa using hc)
    · cases h
  | next =>
    simp only [step] at h
    split at h
    · rename_i i n hpc
      split at h <;> rename_i hi <;> cases h
      · exact .invoke i n hpc hi
      · exact .done i n hpc (by omega)
    · cases h
  | ret =>
    simp only [step] at h
    split at h
    · rename_i i n eh hpc
      cases h
      exact .ret i n eh hpc
    · cases h
  | throws =>
    simp only [step] at h
    split at h
    · rename_i i n c hpc
      cases h
      exact .throws i n c hpc
    · cases h

lemma counted_step (hs : Counted s) (h : step s l = some t) : Counted t := by
  have hn := hs.notified
  have ho := hs.once
  cases step_cases h with
  | set eh => exact ⟨hn, ho, hs.inside⟩
  | full hc => exact hs
  | notify hc => exact ⟨by simp only; omega, ho, hs.inside⟩
  | again r intr hpc hi =>
    exact ⟨hn, by simpa [hpc, Pc.left] using ho, fun _ _ _ h => nomatch h⟩
  | read r hpc hc =>
    simp only [hpc, Pc.left] at ho
    exact ⟨by simp only; omega, by simp only [Pc.left]; omega, fun _ _ _ h => nomatch h⟩
  | invoke i n hpc hi =>
    simp only [hpc, Pc.left] at ho
    refine ⟨hn, by simp only [Pc.left]; omega, fun i' n' h' h => ?_⟩
    cases h
    exact hi
  | done i n hpc hi =>
    simp only [hpc, Pc.left] at ho
    exact ⟨hn, by simp only [Pc.left]; omega, fun _ _ _ h => nomatch h⟩
  | ret i n eh hpc =>
    simp only [hpc, Pc.left] at ho
    exact ⟨hn, ho, fun _ _ _ h => nomatch h⟩
  | throws i n c hpc =>
    simp only [hpc, Pc.left] at ho
    exact ⟨hn, by simp only [Pc.left]; omega, fun _ _ _ h => nomatch h⟩

/-- Only an exception loses counts, and it loses all that are left. -/
lemma complete_step (hs : Counted s) (h : step s l = some t) :
    Complete t ↔ Complete s ∧ LastThrows s l := by
  have ho := hs.once
  cases step_cases h with
  | set eh => simp [Complete, LastThrows]
  | full hc => simp [LastThrows]
  | notify hc => simp [Complete, LastThrows]
  | again r intr hpc hi => simp [Complete, LastThrows, hpc, Pc.left]
  | read r hpc hc =>
    simp only [Complete, LastThrows, hpc, Pc.left, and_true]
    omega
  | invoke i n hpc hi =>
    simp only [Complete, LastThrows, hpc, Pc.left, and_true]
    omega
  | done i n hpc hi =>
    simp only [Complete, LastThrows, hpc, Pc.left, and_true]
    omega
  | ret i n eh hpc => simp [Complete, LastThrows, hpc, Pc.left]
  | throws i n c hpc =>
    simp only [hpc, Pc.left] at ho
    simp only [Complete, LastThrows, hpc, Pc.left]
    omega

/-- **One callback for each notification.** Whenever the event loop is outside `process`, every
notification is in the eventfd or has been read, no count has had two callbacks, and each count
read has had its callback if and only if every callback that threw was the last of its
replay. -/
theorem one_callback_per_count {ls : List (Label C)} {r : Option ℤ}
    (h : run step construct ls = some s) (hout : s.pc = .out r) :
    s.notified = s.read + s.counter ∧ s.invoked ≤ s.read ∧
      (s.invoked = s.read ↔ Meets step LastThrows construct ls) := by
  have hs : Counted s := run_inv (fun _ _ _ hu hl => counted_step hu hl) counted_construct h
  have ho := hs.once
  have hiff := run_iff_meets (P := fun _ => True) (Q := Complete)
    (fun _ _ _ hu _ hl => counted_step hu hl) (fun _ _ _ hu _ hl => complete_step hu hl)
    counted_construct rfl (fun _ _ => trivial) h
  simp only [Complete, hout, Pc.left, Nat.add_zero] at hiff ho
  exact ⟨hs.notified, ho, hiff⟩

/-! ### Where it is dropped -/

/-- Two notifications, the callback of the first throws, and the event loop calls again. -/
def firstThrows : List (Label Unit) :=
  [.set (some ()), .notify, .notify, .process false, .next, .throws, .process false]

theorem dropped_count : ∃ s, run step construct firstThrows = some s ∧ s.pc = .out (some (-1)) ∧
    s.notified = 2 ∧ s.read = 2 ∧ s.invoked = 1 :=
  ⟨_, rfl, rfl, rfl, rfl, rfl⟩

/-- A recursive notification that is replayed in a second run, where the last callback throws. -/
def recursive : List (Label Unit) :=
  [.set (some ()), .notify, .process false, .next, .notify, .ret, .next, .process false, .next,
    .throws]

theorem recursive_count : ∃ s, run step construct recursive = some s ∧
    s.notified = s.read + s.counter ∧ s.invoked ≤ s.read ∧
      (s.invoked = s.read ↔ Meets step LastThrows construct recursive) := by
  have h : run step construct recursive = some ⟨0, some (), .out none, 2, 2, 2⟩ := rfl
  exact ⟨_, h, one_callback_per_count h rfl⟩

end Hbm.Notifier
