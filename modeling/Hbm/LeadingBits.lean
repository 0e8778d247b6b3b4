import Mathlib.Algebra.Order.Ring.Int
import Mathlib.Tactic.Lemma

/-!
Words of any width, and the leading bits in which two of them agree.

Words that agree in their first bits are the words of an interval. The shorter the leading part, the
more words agree, so that two such intervals either are disjoint or one of them contains the other.
-/

namespace Hbm.LeadingBits

variable {w n k : ℕ} {a b c m : BitVec w}

/-- The first `n` bits from the left are the same. -/
def Agree (n : ℕ) (a b : BitVec w) : Prop := ∀ i < n, a.getMsbD i = b.getMsbD i

instance (n : ℕ) (a b : BitVec w) : Decidable (Agree n a b) :=
  inferInstanceAs (Decidable (∀ i < n, _ = _))

@[refl] lemma Agree.refl (n : ℕ) (a : BitVec w) : Agree n a a := fun _ _ => rfl

@[symm] lemma Agree.symm (h : Agree n a b) : Agree n b a := fun i hi => (h i hi).symm

@[trans] lemma Agree.trans (h : Agree n a b) (h' : Agree n b c) : Agree n a c :=
  fun i hi => (h i hi).trans (h' i hi)

lemma Agree.mono (h : Agree k a b) (hn : n ≤ k) : Agree n a b :=
  fun i hi => h i (Nat.lt_of_lt_of_le hi hn)

@[simp] lemma agree_zero : Agree 0 a b := fun _ hi => absurd hi (Nat.not_lt_zero _)

/-- Words that agree in all their bits are equal. -/
lemma agree_width : Agree w a b ↔ a = b := by
  constructor
  · exact fun h => BitVec.eq_of_getMsbD_eq fun i hi => h i hi
  · rintro rfl
    rfl

/-- **Nested or disjoint.** Where two classes of words have one in common, the one with the longer
leading part lies within the other. -/
theorem Agree.nested (h : Agree n a c) (h' : Agree k b c) (hn : n ≤ k) {x : BitVec w}
    (hx : Agree k b x) : Agree n a x :=
  (h.trans (h'.mono hn).symm).trans (hx.mono hn)

/-- How far two words agree. -/
lemma exists_agree_iff (h : a ≠ b) : ∃ k < w, ∀ n, Agree n a b ↔ n ≤ k := by
  have hno : ¬ Agree w a b := fun hw => h (agree_width.mp hw)
  have hfirst : ∀ l, ¬ Agree l a b → ∃ k < l, Agree k a b ∧ ¬ Agree (k + 1) a b := by
    intro l
    induction l with
    | zero => exact fun h0 => absurd agree_zero h0
    | succ l ih =>
      intro hl
      by_cases hprev : Agree l a b
      · exact ⟨l, Nat.lt_succ_self l, hprev, hl⟩
      · obtain ⟨k, hk, hagree⟩ := ih hprev
        exact ⟨k, Nat.lt_succ_of_lt hk, hagree⟩
  obtain ⟨k, hk, hagree, hnext⟩ := hfirst w hno
  refine ⟨k, hk, fun n => ⟨fun hn => ?_, fun hn => hagree.mono hn⟩⟩
  by_contra hgt
  exact hnext (hn.mono (by omega))

/-! ### Intervals -/

/-- Words agree in their leading bits where they are equal without the others. -/
lemma agree_iff_div (hn : n ≤ w) :
    Agree n a b ↔ a.toNat / 2 ^ (w - n) = b.toNat / 2 ^ (w - n) := by
  have hbit : ∀ (x : BitVec w) (i : ℕ), i < n →
      x.getMsbD i = (x.toNat / 2 ^ (w - n)).testBit (w - 1 - i - (w - n)) := by
    intro x i hi
    have hplace : w - 1 - i - (w - n) + (w - n) = w - 1 - i := by omega
    have hin : i < w := by omega
    rw [BitVec.getMsbD_eq_getLsbD, Nat.testBit_div_two_pow, BitVec.testBit_toNat, hplace]
    simp [hin]
  constructor
  · intro h
    apply Nat.eq_of_testBit_eq
    intro j
    rw [Nat.testBit_div_two_pow, Nat.testBit_div_two_pow, BitVec.testBit_toNat,
      BitVec.testBit_toNat]
    rcases Nat.lt_or_ge (j + (w - n)) w with hlt | hge
    · have hplace : w - 1 - (w - 1 - (j + (w - n))) = j + (w - n) := by omega
      have hin : w - 1 - (j + (w - n)) < w := by omega
      have hj := h (w - 1 - (j + (w - n))) (by omega)
      simpa [BitVec.getMsbD_eq_getLsbD, hplace, hin] using hj
    · rw [BitVec.getLsbD_of_ge _ _ hge, BitVec.getLsbD_of_ge _ _ hge]
  · intro h i hi
    rw [hbit a i hi, hbit b i hi, h]

/-- A mask with `n` leading ones cuts off the other bits. -/
lemma toNat_and (hn : n ≤ w) (hm : ∀ i < w, m.getMsbD i = decide (i < n)) :
    (a &&& m).toNat = a.toNat / 2 ^ (w - n) * 2 ^ (w - n) := by
  have hones : ∀ j < w, m.getLsbD j = decide (w - n ≤ j) := by
    intro j hj
    have hplace : w - 1 - (w - 1 - j) = j := by omega
    have hin : w - 1 - j < w := by omega
    have hbit := hm (w - 1 - j) hin
    rw [BitVec.getMsbD_eq_getLsbD, hplace] at hbit
    simp only [hin, decide_true, Bool.true_and] at hbit
    rw [hbit]
    exact decide_eq_decide.mpr (by omega)
  apply Nat.eq_of_testBit_eq
  intro j
  rw [BitVec.testBit_toNat, BitVec.getLsbD_and, Nat.testBit_mul_two_pow,
    Nat.testBit_div_two_pow, BitVec.testBit_toNat]
  rcases Nat.lt_or_ge j w with hlt | hge
  · rw [hones j hlt]
    rcases Nat.lt_or_ge j (w - n) with hlow | hhigh
    · simp [Nat.not_le.mpr hlow]
    · have hplace : j - (w - n) + (w - n) = j := by omega
      simp [hhigh, hplace, Bool.and_comm]
  · have hplace : j - (w - n) + (w - n) = j := by omega
    rw [BitVec.getLsbD_of_ge _ _ hge]
    simp [hplace, BitVec.getLsbD_of_ge _ _ hge]

/-- **An interval.** The words that agree with `a` are those from `a` without its other bits on. -/
theorem agree_iff_interval (hn : n ≤ w) (hm : ∀ i < w, m.getMsbD i = decide (i < n)) :
    Agree n a b ↔ (a &&& m).toNat ≤ b.toNat ∧ b.toNat < (a &&& m).toNat + 2 ^ (w - n) := by
  have hpos : 0 < 2 ^ (w - n) := Nat.pow_pos (by decide)
  rw [agree_iff_div hn, toNat_and hn hm, eq_comm, Nat.div_eq_iff hpos]
  generalize a.toNat / 2 ^ (w - n) * 2 ^ (w - n) = x
  omega

/-- The same mask leaves the same exactly where the leading bits agree. -/
lemma and_eq_and_iff (hn : n ≤ w) (hm : ∀ i < w, m.getMsbD i = decide (i < n)) :
    a &&& m = b &&& m ↔ Agree n a b := by
  have hpos : 0 < 2 ^ (w - n) := Nat.pow_pos (by decide)
  rw [agree_iff_div hn, ← BitVec.toNat_inj, toNat_and hn hm, toNat_and hn hm]
  exact Nat.mul_left_inj hpos.ne'

end Hbm.LeadingBits
