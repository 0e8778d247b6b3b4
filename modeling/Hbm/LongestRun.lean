import Mathlib.Data.List.Induction
import Mathlib.Data.List.Range

/-!
The longest run, found in one pass.

The places that satisfy a predicate form runs. The pass keeps the run that reaches up to where it
stands, and the best of those that ended before; of runs of the same length the first one counts.
-/

namespace Hbm.LongestRun

variable (p : ℕ → Prop)

@[ext] structure Run where
  base : ℕ
  len : ℕ
deriving DecidableEq

structure Scan where
  cur : Option Run
  best : Option Run

/-- `cur` instead of `best` if it is longer, or the first one. -/
def better : Option Run → Option Run → Option Run
  | none, best => best
  | some cur, none => some cur
  | some cur, some best => if best.len < cur.len then some cur else some best

def step [DecidablePred p] (s : Scan) (i : ℕ) : Scan :=
  if p i then
    { s with cur := match s.cur with
      | none => some ⟨i, 1⟩
      | some cur => some { cur with len := cur.len + 1 } }
  else ⟨none, better s.cur s.best⟩

def scan [DecidablePred p] (n : ℕ) : Scan := (List.range n).foldl (step p) ⟨none, none⟩

/-- The longest run among the first `n` places. -/
def longest [DecidablePred p] (n : ℕ) : Option Run := better (scan p n).cur (scan p n).best

lemma scan_succ [DecidablePred p] (n : ℕ) : scan p (n + 1) = step p (scan p n) n := by
  rw [scan, List.range_succ, List.foldl_append]
  rfl

/-! ### What the pass keeps -/

/-- A run that is not empty, in front of `n`. -/
structure IsRun (n : ℕ) (r : Run) : Prop where
  pos : 0 < r.len
  le : r.base + r.len ≤ n
  all : ∀ i, r.base ≤ i → i < r.base + r.len → p i

/-- Longer, or as long and not behind. -/
def Precedes (r r' : Run) : Prop := r'.len < r.len ∨ r'.len = r.len ∧ r.base ≤ r'.base

/-- `o` is the first of the longest runs that end in front of `k`, if there is one. -/
def Best (n k : ℕ) (o : Option Run) : Prop :=
  (∀ r, o = some r → IsRun p n r ∧ r.base + r.len < k) ∧
    ∀ r, IsRun p n r → r.base + r.len < k → ∃ b, o = some b ∧ Precedes b r

/-- The current run goes from `k` up to where the pass stands; in front of `k` there is a place that
does not satisfy the predicate, or nothing. -/
structure Inv (n k : ℕ) (s : Scan) : Prop where
  le : k ≤ n
  all : ∀ i, k ≤ i → i < n → p i
  start : ∀ i, i + 1 = k → ¬ p i
  cur : s.cur = if k < n then some ⟨k, n - k⟩ else none
  best : Best p n k s.best

variable {p} {n k : ℕ} {r : Run} {s : Scan} {o : Option Run}

/-- A run is in front of the current one, or part of it. -/
lemma Inv.cases (hi : Inv p n k s) (hr : IsRun p n r) : r.base + r.len < k ∨ k ≤ r.base := by
  by_contra! h
  have hpos := hr.pos
  exact hi.start (k - 1) (by omega) (hr.all (k - 1) (by omega) (by omega))

/-- The current run is a run. -/
lemma Inv.run (hi : Inv p n k s) (hlt : k < n) : IsRun p n ⟨k, n - k⟩ := by
  refine ⟨Nat.sub_pos_of_lt hlt, by dsimp only; omega, fun i hk hn => ?_⟩
  exact hi.all i hk (by dsimp only at hn; omega)

/-- The current run goes to the end, and a run that is part of it is no longer. -/
lemma precedes_current (hr : IsRun p n r) (hk : k ≤ r.base) : Precedes ⟨k, n - k⟩ r := by
  have hle := hr.le
  unfold Precedes
  dsimp only
  omega

lemma best_of_precedes {b : Run} (hb : IsRun p n b) (hfirst : ∀ r, IsRun p n r → Precedes b r) :
    Best p n (n + 1) (some b) := by
  refine ⟨fun r hr => ?_, fun r hr _ => ⟨b, rfl, hfirst r hr⟩⟩
  obtain rfl := Option.some.inj hr
  exact ⟨hb, Nat.lt_succ_of_le hb.le⟩

/-- What `better` gives is the best of all. -/
lemma Inv.best_all (hi : Inv p n k s) : Best p n (n + 1) (better s.cur s.best) := by
  rw [hi.cur]
  split_ifs with hlt
  · cases hbest : s.best with
    | none =>
      refine best_of_precedes (hi.run hlt) fun r hr => ?_
      refine precedes_current hr ((hi.cases hr).resolve_left fun hfront => ?_)
      obtain ⟨b, hb, -⟩ := hi.best.2 r hr hfront
      rw [hbest] at hb
      cases hb
    | some b =>
      have hb := (hi.best.1 b hbest).1
      have hprecedes : ∀ r, IsRun p n r → r.base + r.len < k → Precedes b r := by
        intro r hr hfront
        obtain ⟨b', hb', h⟩ := hi.best.2 r hr hfront
        rw [hbest] at hb'
        exact Option.some.inj hb' ▸ h
      unfold better
      dsimp only
      split_ifs with hlen
      · refine best_of_precedes (hi.run hlt) fun r hr => ?_
        rcases hi.cases hr with hfront | hk
        · have := hprecedes r hr hfront
          unfold Precedes at this ⊢
          dsimp only
          omega
        · exact precedes_current hr hk
      · refine best_of_precedes hb fun r hr => ?_
        rcases hi.cases hr with hfront | hk
        · exact hprecedes r hr hfront
        · have := precedes_current hr hk
          have hle := (hi.best.1 b hbest).2
          unfold Precedes at this ⊢
          dsimp only at this
          omega
  · refine ⟨fun r hr => ?_, fun r hr _ => ?_⟩
    · obtain ⟨hr, hfront⟩ := hi.best.1 r hr
      exact ⟨hr, Nat.lt_of_lt_of_le hfront (Nat.le_succ_of_le hi.le)⟩
    · refine hi.best.2 r hr ((hi.cases hr).resolve_right fun hk => hlt ?_)
      have hpos := hr.pos
      have hle := hr.le
      omega

variable [DecidablePred p]

/-- One place more. -/
lemma Inv.step (hi : Inv p n k s) : ∃ k, Inv p (n + 1) k (step p s n) := by
  have hrun : ∀ r, r.base + r.len < n + 1 → (IsRun p (n + 1) r ↔ IsRun p n r) := fun r hr =>
    ⟨fun h => ⟨h.pos, by omega, h.all⟩, fun h => ⟨h.pos, by omega, h.all⟩⟩
  have hle := hi.le
  unfold LongestRun.step
  split_ifs with hp
  · refine ⟨k, by omega, fun i hk hn => ?_, hi.start, ?_, fun r hr => ?_, fun r hr hk => ?_⟩
    · rcases Nat.lt_succ_iff_lt_or_eq.mp hn with hlt | rfl
      · exact hi.all i hk hlt
      · exact hp
    · rw [hi.cur, if_pos (Nat.lt_succ_of_le hle)]
      split_ifs with hlt
      · simp only [Option.some.injEq, Run.mk.injEq, true_and]
        omega
      · simp only [Option.some.injEq, Run.mk.injEq]
        omega
    · obtain ⟨hr, hk⟩ := hi.best.1 r hr
      exact ⟨(hrun r (by omega)).mpr hr, hk⟩
    · exact hi.best.2 r ((hrun r (by omega)).mp hr) hk
  · obtain ⟨hall, hfirst⟩ := hi.best_all
    refine ⟨n + 1, le_rfl, fun i hk hn => absurd hn (by omega), fun i hi' => ?_, ?_, fun r hr => ?_,
      fun r hr hk => hfirst r ((hrun r hk).mp hr) hk⟩
    · rwa [Nat.succ_inj.mp hi']
    · rw [if_neg (lt_irrefl _)]
    · obtain ⟨hr, hk⟩ := hall r hr
      exact ⟨(hrun r hk).mpr hr, hk⟩

lemma exists_inv (n : ℕ) : ∃ k, Inv p n k (scan p n) := by
  induction n with
  | zero =>
    refine ⟨0, le_rfl, fun i _ h => absurd h (Nat.not_lt_zero i), fun i h => by omega, rfl,
      fun r hr => ?_, fun r hr => ?_⟩
    · cases hr
    · exact fun h => absurd h (Nat.not_lt_zero _)
  | succ n ih =>
    obtain ⟨k, hi⟩ := ih
    rw [scan_succ]
    exact hi.step

/-- **The longest run** is a run, if there is one at all, and comes before all others. -/
theorem longest_best (n : ℕ) : (∀ r, longest p n = some r → IsRun p n r) ∧
    ∀ r, IsRun p n r → ∃ b, longest p n = some b ∧ Precedes b r := by
  obtain ⟨k, hi⟩ := exists_inv (p := p) n
  obtain ⟨hall, hfirst⟩ := hi.best_all
  exact ⟨fun r hr => (hall r hr).1, fun r hr => hfirst r hr (Nat.lt_succ_of_le hr.le)⟩

end Hbm.LongestRun
