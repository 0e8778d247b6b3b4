import Hbm.Epoll
import Mathlib.Data.List.Nodup
import Mathlib.Data.List.Perm.Subperm
import Mathlib.Data.List.Range
import Mathlib.Tactic.Lemma

/-!
A kernel that hands out descriptor numbers: a new descriptor gets the lowest free number, and
closing one takes it out of the interest set.
-/

namespace Hbm.Descriptors

open Hbm.Mask Hbm.Epoll

/-! ### The lowest number that is not in use, as a finite search -/

def lowest (used : List ℕ) : ℕ :=
  ((List.range (used.length + 1)).find? fun n => decide (n ∉ used)).getD 0

/-- A list does not contain all numbers up to its length. -/
lemma exists_free (used : List ℕ) : ∃ n ≤ used.length, n ∉ used := by
  by_contra h
  push Not at h
  have hsub : List.range (used.length + 1) ⊆ used := by
    intro n hn
    exact h n (by have := List.mem_range.mp hn; omega)
  have := (List.subperm_of_subset List.nodup_range hsub).length_le
  rw [List.length_range] at this
  omega

lemma find_lowest (used : List ℕ) :
    (List.range (used.length + 1)).find? (fun n => decide (n ∉ used)) = some (lowest used) := by
  rcases hf : (List.range (used.length + 1)).find? fun n => decide (n ∉ used) with _ | n
  · obtain ⟨n, hn, hfree⟩ := exists_free used
    have := List.find?_eq_none.mp hf n (List.mem_range.mpr (by omega))
    simp [hfree] at this
  · rw [lowest, hf, Option.getD_some]

lemma lowest_not_mem (used : List ℕ) : lowest used ∉ used := by
  have := List.find?_some (find_lowest used)
  simpa using this

lemma lowest_le {used : List ℕ} {n : ℕ} (h : n ∉ used) : lowest used ≤ n := by
  by_contra hlt
  have := (List.find?_range_eq_some.mp (find_lowest used)).2.2 n (by omega)
  simp [h] at this

/-! ### The descriptors -/

lemma toNat_inj {a b : ℤ} (ha : 0 ≤ a) (hb : 0 ≤ b) (h : a.toNat = b.toNat) : a = b := by omega

/-- The open descriptors and the interest set, which has only open ones. -/
structure Files where
  opened : List ℕ
  reg : Fd → Option EpollEvent
  reg_open : ∀ fd, (reg fd).isSome = true → 0 ≤ fd ∧ fd.toNat ∈ opened

namespace Files

def isOpen (k : Files) (fd : Fd) : Bool := decide (0 ≤ fd ∧ fd.toNat ∈ k.opened)

def none : Files := ⟨[], fun _ => Option.none, by simp⟩

/-- `epoll_ctl` fails with `EBADF` on what is not open. -/
def ctl (k : Files) (op : CtlOp) (fd : Fd) (ev : Option EpollEvent) : Files × ℤ :=
  if h : (sensible (k.reg fd) op && k.isOpen fd) = true then
    ({ k with
        reg := Function.update k.reg fd (op.entry ev)
        reg_open := by
          intro g hg
          by_cases hk : g = fd
          · subst hk
            have := (Bool.and_eq_true_iff.mp h).2
            simpa [isOpen] using this
          · rw [Function.update_of_ne hk] at hg
            exact k.reg_open g hg }, 0)
  else (k, -1)

/-- `socket`, `accept` or another call that returns a new descriptor. -/
def socket (k : Files) : Files × Fd :=
  ({ k with
      opened := lowest k.opened :: k.opened
      reg_open := fun fd h => ⟨(k.reg_open fd h).1, List.mem_cons_of_mem _ (k.reg_open fd h).2⟩ },
    lowest k.opened)

/-- `close`. -/
def close (k : Files) (fd : Fd) : Files where
  opened := if 0 ≤ fd then k.opened.filter (· ≠ fd.toNat) else k.opened
  reg := Function.update k.reg fd Option.none
  reg_open := by
    intro g hg
    have hk : g ≠ fd := by rintro rfl; simp at hg
    rw [Function.update_of_ne hk] at hg
    obtain ⟨h0, hm⟩ := k.reg_open g hg
    refine ⟨h0, ?_⟩
    split
    · next hfd =>
      rw [List.mem_filter]
      exact ⟨hm, decide_eq_true fun h => hk (toNat_inj h0 hfd h)⟩
    · exact hm

/-- Any open registered descriptors may be reported. -/
def report (k : Files) (rs : List (Fd × EpollEvent)) : Option Files :=
  if (rs.map Prod.fst).Nodup ∧ ∀ r ∈ rs, ∃ ev ∈ k.reg r.1, Registered ev r.2 then some k
  else Option.none

end Files

instance : RegKernel Files where
  ctl := Files.ctl
  report := Files.report
  World := Unit
  world := fun k _ => some k.socket.1
  reg := Files.reg
  accepts := fun k op fd => sensible (k.reg fd) op && k.isOpen fd
  ctl_ret := by
    intro k op fd ev
    unfold Files.ctl
    split <;> simp_all
  ctl_reg := by
    intro k op fd ev
    unfold Files.ctl
    split <;> simp_all
  report_reg := by
    intro k k' rs h
    unfold Files.report at h
    split at h <;> cases h
    rfl
  report_nodup := by
    intro k k' rs h
    unfold Files.report at h
    split at h
    · next hc => exact hc.1
    · cases h
  report_mem := by
    intro k k' rs r h hr
    unfold Files.report at h
    split at h
    · next hc =>
      obtain ⟨ev, hev, hreg⟩ := hc.2 r hr
      exact ⟨ev, hev, hreg⟩
    · cases h
  world_reg := by
    intro k k' w h
    cases h
    rfl

variable {k : Files} {fd g : Fd}

lemma socket_isOpen : k.socket.1.isOpen fd = true ↔ fd = k.socket.2 ∨ k.isOpen fd = true := by
  simp only [Files.socket, Files.isOpen, decide_eq_true_eq, List.mem_cons]
  constructor
  · rintro ⟨h0, h | h⟩
    · exact Or.inl (toNat_inj h0 (Int.natCast_nonneg _) (by rw [h, Int.toNat_natCast]))
    · exact Or.inr ⟨h0, h⟩
  · rintro (rfl | ⟨h0, h⟩)
    · exact ⟨Int.natCast_nonneg _, Or.inl (Int.toNat_natCast _)⟩
    · exact ⟨h0, Or.inr h⟩

lemma not_isOpen_neg : k.isOpen (-1) = false := by
  simp [Files.isOpen]

lemma socket_free : k.isOpen k.socket.2 = false := by
  simp [Files.socket, Files.isOpen, lowest_not_mem]

/-- A new descriptor has the lowest free number. -/
lemma socket_le {n : ℕ} (h : k.isOpen n = false) : k.socket.2 ≤ n := by
  have hn : n ∉ k.opened := by simpa [Files.isOpen] using h
  exact Int.ofNat_le.mpr (lowest_le hn)

lemma close_isOpen : (k.close fd).isOpen g = true ↔ g ≠ fd ∧ k.isOpen g = true := by
  simp only [Files.isOpen, decide_eq_true_eq]
  by_cases hfd : 0 ≤ fd
  · simp only [Files.close, if_pos hfd, List.mem_filter, decide_eq_true_eq]
    constructor
    · rintro ⟨h0, hm, hne⟩
      exact ⟨fun h => hne (by rw [h]), h0, hm⟩
    · rintro ⟨hne, h0, hm⟩
      exact ⟨h0, hm, fun h => hne (toNat_inj h0 hfd h)⟩
  · simp only [Files.close, if_neg hfd]
    constructor
    · rintro ⟨h0, hm⟩
      exact ⟨fun h => hfd (h ▸ h0), h0, hm⟩
    · exact fun h => h.2

@[simp] lemma close_reg_self : (k.close fd).reg fd = none := by simp [Files.close]

lemma close_reg_of_ne (h : g ≠ fd) : (k.close fd).reg g = k.reg g := by
  simp [Files.close, Function.update_of_ne h]

lemma reg_of_not_isOpen (h : k.isOpen fd = false) : k.reg fd = none := by
  rcases hr : k.reg fd with _ | ev
  · rfl
  · have := k.reg_open fd (by rw [hr]; rfl)
    simp only [Files.isOpen, decide_eq_false_iff_not] at h
    exact absurd this h

end Hbm.Descriptors
