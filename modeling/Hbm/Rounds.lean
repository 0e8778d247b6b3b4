import Mathlib.Data.List.Basic

/-!
Serving a set of clients round after round, always in the same order.

A service is a round and a client. When the services come in the order of the scan and a
client that is served has been served in every earlier round, then between two consecutive
services of one client every other client is served at most once, and exactly once if it was
never passed over.
-/

namespace Hbm.Rounds

variable {α : Type*} (turn : α → ℕ)

/-- The service `a` comes before `b` in the scan. -/
def Before (a b : ℕ × α) : Prop := a.1 < b.1 ∨ a.1 = b.1 ∧ turn a.2 < turn b.2

/-- A history of services, newest first, of a scan that passes over no client it serves later. -/
structure Scan (ks : List (ℕ × α)) : Prop where
  sorted : ks.Pairwise fun a b => Before turn b a
  gapless : ∀ r x, (r, x) ∈ ks → ∀ i < r, (i, x) ∈ ks

lemma countP_le_one {p : α → Bool} {l : List α} (h : l.Pairwise fun a b => ¬(p a ∧ p b)) :
    l.countP p ≤ 1 := by
  induction l with
  | nil => simp
  | cons a l ih =>
    obtain ⟨ha, hl⟩ := List.pairwise_cons.mp h
    by_cases hp : p a
    · have : l.countP p = 0 := List.countP_eq_zero.mpr fun b hb hpb => ha b hb ⟨hp, hpb⟩
      simp [hp, this]
    · simpa [hp] using ih hl

variable {turn} {ks newer mid older : List (ℕ × α)} {r r' : ℕ} {x y : α}

lemma Before.irrefl (a : ℕ × α) : ¬ Before turn a a := by
  rintro (h | ⟨-, h⟩) <;> omega

/-- The services between two services of the list lie between them in the scan. -/
lemma Scan.between (hs : Scan turn ks) (h : ks = newer ++ (r', x) :: (mid ++ (r, x) :: older))
    {k : ℕ × α} (hk : k ∈ mid) : Before turn k (r', x) ∧ Before turn (r, x) k := by
  have hsort := hs.sorted
  rw [h, List.pairwise_append, List.pairwise_cons, List.pairwise_append] at hsort
  obtain ⟨-, ⟨h1, -, -, h2⟩, -⟩ := hsort
  exact ⟨h1 k (by simp [hk]), h2 k hk (r, x) (by simp)⟩

/-- What is served between them in the scan stands between them in the list. -/
lemma Scan.mem_mid (hs : Scan turn ks) (h : ks = newer ++ (r', x) :: (mid ++ (r, x) :: older))
    {k : ℕ × α} (hk : k ∈ ks) (h1 : Before turn k (r', x)) (h2 : Before turn (r, x) k) :
    k ∈ mid := by
  have hsort := hs.sorted
  rw [h, List.pairwise_append, List.pairwise_cons, List.pairwise_append, List.pairwise_cons]
    at hsort
  obtain ⟨-, ⟨-, -, ⟨h4, -⟩, -⟩, h5⟩ := hsort
  rw [h] at hk
  simp only [List.mem_append, List.mem_cons] at hk
  rcases hk with hk | rfl | hk | rfl | hk
  · have := h5 k hk (r', x) (by simp)
    simp only [Before] at this h1
    omega
  · exact absurd h1 (Before.irrefl _)
  · exact hk
  · exact absurd h2 (Before.irrefl _)
  · have := h4 k hk
    simp only [Before] at this h2
    omega

/-- Two consecutive services of one client are one round apart. -/
lemma Scan.consecutive (hs : Scan turn ks)
    (h : ks = newer ++ (r', x) :: (mid ++ (r, x) :: older)) (hx : ∀ k ∈ mid, k.2 ≠ x) :
    r' = r + 1 := by
  have hlt : r < r' := by
    have hsort := hs.sorted
    rw [h, List.pairwise_append, List.pairwise_cons] at hsort
    have := hsort.2.1.1 (r, x) (by simp)
    simp only [Before] at this
    omega
  by_contra hne
  have hmem : (r + 1, x) ∈ ks := hs.gapless r' x (by rw [h]; simp) (r + 1) (by omega)
  exact hx _ (hs.mem_mid h hmem (Or.inl (by simp; omega)) (Or.inl (by simp))) rfl

variable [DecidableEq α]

/-- **Fairness**: between two consecutive services of a client every other one is served at
most once, and once if the scan has not passed over it. -/
theorem Scan.one_between (hinj : Function.Injective turn) (hs : Scan turn ks)
    (h : ks = newer ++ (r', x) :: (mid ++ (r, x) :: older)) (hx : ∀ k ∈ mid, k.2 ≠ x)
    (hy : y ≠ x) :
    mid.countP (·.2 = y) ≤ 1 ∧
      ((∀ i, Before turn (i, y) (r', x) → (i, y) ∈ ks) → mid.countP (·.2 = y) = 1) := by
  have hr := hs.consecutive h hx
  have hne : turn y ≠ turn x := fun he => hy (hinj he)
  -- the only round in which the other client has its turn in between
  obtain ⟨i, hi⟩ : ∃ i, ∀ j, (Before turn (j, y) (r', x) ∧ Before turn (r, x) (j, y)) ↔ j = i := by
    rcases Nat.lt_or_gt_of_ne hne with hlt | hgt
    · exact ⟨r + 1, fun j => by simp only [Before]; omega⟩
    · exact ⟨r, fun j => by simp only [Before]; omega⟩
  have hle : mid.countP (·.2 = y) ≤ 1 := by
    refine countP_le_one ?_
    have hsort := hs.sorted
    rw [h, List.pairwise_append, List.pairwise_cons, List.pairwise_append] at hsort
    refine hsort.2.1.2.1.imp_of_mem fun {a b} ha hb hab => ?_
    simp only [decide_eq_true_eq]
    rintro ⟨rfl, hb2⟩
    obtain ⟨j, z⟩ := a
    obtain ⟨l, w⟩ := b
    obtain rfl : w = z := hb2
    have h1 := (hi j).mp (hs.between h ha)
    have h2 := (hi l).mp (hs.between h hb)
    subst h1 h2
    exact Before.irrefl _ hab
  refine ⟨hle, fun hall => ?_⟩
  obtain ⟨h1, h2⟩ := (hi i).mpr rfl
  have hmem := hs.mem_mid h (hall i h1) h1 h2
  have : 0 < mid.countP (·.2 = y) := List.countP_pos_iff.mpr ⟨_, hmem, by simp⟩
  omega

end Hbm.Rounds
