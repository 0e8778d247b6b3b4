import Mathlib.Tactic.Lemma
import Mathlib.Data.Nat.Notation

/-!
Loops whose body goes on with a new state, or leaves with a result.

A loop is run with fuel. It ends if some fuel is enough; how much does not matter then.
-/

namespace Hbm.Loop

variable {S R : Type*}

/-- At most `n` turns. -/
def run (body : S → S ⊕ R) : ℕ → S → Option R
  | 0, _ => none
  | n + 1, s =>
    match body s with
    | .inl t => run body n t
    | .inr r => some r

/-- The loop ends with the result. -/
def Ends (body : S → S ⊕ R) (s : S) (r : R) : Prop := ∃ n, run body n s = some r

variable {body : S → S ⊕ R} {s t : S} {r r' : R} {n m : ℕ}

lemma run_inl (h : body s = .inl t) : run body (n + 1) s = run body n t := by
  simp only [run, h]

lemma run_inr (h : body s = .inr r) : run body (n + 1) s = some r := by
  simp only [run, h]

/-- More fuel does no harm. -/
lemma run_mono (h : run body n s = some r) (hle : n ≤ m) : run body m s = some r := by
  induction n generalizing m s with
  | zero => cases h
  | succ n ih =>
    obtain ⟨m, rfl⟩ : ∃ k, m = k + 1 := ⟨m - 1, by omega⟩
    cases hb : body s with
    | inl t =>
      rw [run_inl hb] at h ⊢
      exact ih h (by omega)
    | inr r' =>
      rw [run_inr hb] at h ⊢
      exact h

lemma Ends.unique (h : Ends body s r) (h' : Ends body s r') : r = r' := by
  obtain ⟨n, hn⟩ := h
  obtain ⟨m, hm⟩ := h'
  have hn := run_mono hn (Nat.le_max_left n m)
  have hm := run_mono hm (Nat.le_max_right n m)
  exact Option.some.inj (hn.symm.trans hm)

/-- The loop leaves at once. -/
lemma ends_iff_of_inr (h : body s = .inr r) : Ends body s r' ↔ r' = r := by
  constructor
  · intro h'
    exact h'.unique ⟨1, run_inr h⟩
  · rintro rfl
    exact ⟨1, run_inr h⟩

/-- The loop goes on. -/
lemma ends_iff_of_inl (h : body s = .inl t) : Ends body s r ↔ Ends body t r := by
  constructor
  · rintro ⟨n, hn⟩
    cases n with
    | zero => cases hn
    | succ n => exact ⟨n, by rwa [run_inl h] at hn⟩
  · rintro ⟨n, hn⟩
    exact ⟨n + 1, by rwa [run_inl h]⟩

/-- **The rule for loops without an end.** In every state of the invariant the loop goes on to
another one. -/
theorem not_ends_of_inv {I : S → Prop} (hstep : ∀ s, I s → ∃ t, body s = .inl t ∧ I t)
    (hs : I s) : ¬ Ends body s r := by
  rintro ⟨n, hn⟩
  induction n generalizing s with
  | zero => cases hn
  | succ n ih =>
    obtain ⟨t, hb, ht⟩ := hstep s hs
    rw [run_inl hb] at hn
    exact ih ht hn

end Hbm.Loop
