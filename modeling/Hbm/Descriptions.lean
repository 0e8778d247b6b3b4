import Hbm.Epoll
import Mathlib.Data.List.Range

/-!
A kernel with open file descriptions: a descriptor number refers to one, and so may numbers of
other processes.

The interest set of epoll is keyed by the number and the description behind it. Closing a number
takes nothing out of it as long as the description is referred to, and the control operations
reach a description by an open number only.
-/

namespace Hbm.Descriptions

open Hbm.Mask Hbm.Epoll

/-- The numbers of the process, how many refer to each description here and elsewhere, and the
interest set. Descriptions are numbered as they are made. -/
structure OpenFiles where
  desc : Fd → Option ℕ
  own : ℕ → ℕ
  others : ℕ → ℕ
  entry : Fd → ℕ → Option EpollEvent
  next : ℕ
  room : Bool
  desc_lt : ∀ {fd d}, desc fd = some d → 0 ≤ fd ∧ d < next
  entry_lt : ∀ {fd d}, (entry fd d).isSome = true → d < next

namespace OpenFiles

variable (k : OpenFiles)

/-- A control operation that is accepted; there may be no room for one more entry. -/
def accepts (op : CtlOp) (fd : Fd) : Bool :=
  match k.desc fd with
  | none => false
  | some d => sensible (k.entry fd d) op && (k.room || op ≠ .ADD)

/-- `epoll_ctl` fails with `EBADF` on a number that is not open. -/
def ctl (op : CtlOp) (fd : Fd) (ev : Option EpollEvent) : OpenFiles × ℤ :=
  if k.accepts op fd then
    ({ k with
        entry := fun g d => if g = fd ∧ k.desc fd = some d then op.entry ev else k.entry g d
        entry_lt := by
          intro g d h
          by_cases hk : g = fd ∧ k.desc fd = some d
          · exact (k.desc_lt hk.2).2
          · rw [if_neg hk] at h
            exact k.entry_lt h }, 0)
  else (k, -1)

/-- A new description, on a number that is free. -/
def socket (fd : Fd) : Option OpenFiles :=
  if hfree : 0 ≤ fd ∧ k.desc fd = none then
    some { k with
      desc := Function.update k.desc fd (some k.next)
      own := Function.update k.own k.next 1
      others := Function.update k.others k.next 0
      next := k.next + 1
      desc_lt := by
        intro g d h
        by_cases hg : g = fd
        · subst hg
          rw [Function.update_self] at h
          cases h
          exact ⟨hfree.1, Nat.lt_succ_self _⟩
        · rw [Function.update_of_ne hg] at h
          exact ⟨(k.desc_lt h).1, Nat.lt_succ_of_lt (k.desc_lt h).2⟩
      entry_lt := fun h => Nat.lt_succ_of_lt (k.entry_lt h) }
  else none

/-- Another number of the process for the description of an open one. -/
def dup (fd g : Fd) : Option OpenFiles :=
  match hfd : k.desc fd with
  | none => none
  | some d =>
    if hfree : 0 ≤ g ∧ k.desc g = none then
      some { k with
        desc := Function.update k.desc g (some d)
        own := Function.update k.own d (k.own d + 1)
        desc_lt := by
          intro f e h
          by_cases hf : f = g
          · subst hf
            rw [Function.update_self] at h
            cases h
            exact ⟨hfree.1, (k.desc_lt hfd).2⟩
          · rw [Function.update_of_ne hf] at h
            exact k.desc_lt h }
    else none

/-- A forked process refers to a description. -/
def inherit (d : ℕ) : Option OpenFiles :=
  if k.own d + k.others d = 0 then none
  else some { k with others := Function.update k.others d (k.others d + 1) }

/-- The interest set when nothing refers to the description any more. -/
def forget (d : ℕ) (left : ℕ) (fd : Fd) (e : ℕ) : Option EpollEvent :=
  if left = 0 ∧ e = d then none else k.entry fd e

lemma forget_lt {d left : ℕ} {fd : Fd} {e : ℕ} (h : (k.forget d left fd e).isSome = true) :
    e < k.next := by
  unfold forget at h
  split_ifs at h
  · cases h
  · exact k.entry_lt h

/-- Another process closes its number, or comes to an end. -/
def release (d : ℕ) : Option OpenFiles :=
  if k.others d = 0 then none
  else some { k with
    others := Function.update k.others d (k.others d - 1)
    entry := k.forget d (k.own d + (k.others d - 1))
    entry_lt := fun h => k.forget_lt h }

/-- `close`. -/
def close (fd : Fd) : OpenFiles :=
  match k.desc fd with
  | none => k
  | some d => { k with
      desc := Function.update k.desc fd none
      own := Function.update k.own d (k.own d - 1)
      entry := k.forget d (k.own d - 1 + k.others d)
      desc_lt := by
        intro g e h
        by_cases hg : g = fd
        · subst hg
          rw [Function.update_self] at h
          cases h
        · rw [Function.update_of_ne hg] at h
          exact k.desc_lt h
      entry_lt := fun h => k.forget_lt h }

/-- What happens to numbers and descriptions besides the calls of the event loop. -/
inductive World where
  | socket (fd : Fd)
  | dup (fd g : Fd)
  | inherit (d : ℕ)
  | release (d : ℕ)
  | room (room : Bool)

def world : World → Option OpenFiles
  | .socket fd => k.socket fd
  | .dup fd g => k.dup fd g
  | .inherit d => k.inherit d
  | .release d => k.release d
  | .room room => some { k with room }

/-- Every reported event is one of an entry. -/
def report (rs : List (Fd × EpollEvent)) : Option OpenFiles :=
  if rs.all fun r => (List.range k.next).any fun d => (k.entry r.1 d).any fun ev =>
      decide (Registered ev r.2) then some k
  else none

end OpenFiles

instance : Kernel OpenFiles where
  ctl := OpenFiles.ctl
  report := OpenFiles.report
  World := OpenFiles.World
  world := OpenFiles.world

/-! ### What the operations leave -/

variable {k t : OpenFiles} {op : CtlOp} {fd g : Fd} {ev : Option EpollEvent} {d e : ℕ}
variable {x : EpollEvent}

@[simp] lemma ctl_desc : (Kernel.ctl k op fd ev).1.desc = k.desc := by
  change (k.ctl op fd ev).1.desc = _
  unfold OpenFiles.ctl
  split <;> rfl

/-- An operation on a number that is closed leaves everything as it is. -/
lemma ctl_closed (h : k.desc fd = none) : (Kernel.ctl k op fd ev).1 = k := by
  change (k.ctl op fd ev).1 = _
  unfold OpenFiles.ctl OpenFiles.accepts
  simp [h]

lemma ctl_entry_of_ne (h : g ≠ fd) : (Kernel.ctl k op fd ev).1.entry g = k.entry g := by
  change (k.ctl op fd ev).1.entry g = _
  unfold OpenFiles.ctl
  split
  · funext d
    exact if_neg fun hk => h hk.1
  · rfl

/-- An entry of the number is the one that was passed, or was there before. -/
lemma ctl_entry_self (h : (Kernel.ctl k op fd ev).1.entry fd d = some x) :
    (k.desc fd = some d ∧ op.entry ev = some x) ∨ k.entry fd d = some x := by
  change (k.ctl op fd ev).1.entry fd d = some x at h
  unfold OpenFiles.ctl at h
  split at h
  · dsimp only at h
    split_ifs at h with hk
    · exact .inl ⟨hk.2, h⟩
    · exact .inr h
  · exact .inr h

/-- What is open and registered can be taken out. -/
lemma ctl_del_entry (hd : k.desc fd = some d) :
    (Kernel.ctl k .DEL fd none).1.entry fd d = none := by
  have haccepts : k.accepts .DEL fd = (k.entry fd d).isSome := by
    unfold OpenFiles.accepts
    simp [hd, sensible]
  change (k.ctl .DEL fd none).1.entry fd d = none
  unfold OpenFiles.ctl
  split
  · exact if_pos ⟨rfl, hd⟩
  · next h =>
    rw [haccepts] at h
    exact Option.not_isSome_iff_eq_none.mp h

lemma forget_some {left : ℕ} (h : k.forget d left g e = some x) : k.entry g e = some x := by
  unfold OpenFiles.forget at h
  split_ifs at h
  exact h

/-- The other calls make no entry, and leave every open number with its description. -/
lemma world_some {w : OpenFiles.World} (h : k.world w = some t) :
    (∀ {g e x}, t.entry g e = some x → k.entry g e = some x) ∧
      ∀ {g e}, k.desc g = some e → t.desc g = some e := by
  cases w with
  | socket fd =>
    simp only [OpenFiles.world, OpenFiles.socket] at h
    split_ifs at h with hfree
    cases h
    refine ⟨id, fun {g e} hg => ?_⟩
    have hne : g ≠ fd := by
      rintro rfl
      cases hfree.2.symm.trans hg
    exact (Function.update_of_ne hne _ _).trans hg
  | dup fd f =>
    simp only [OpenFiles.world, OpenFiles.dup] at h
    split at h
    · cases h
    · split_ifs at h with hfree
      cases h
      refine ⟨id, fun {g e} hg => ?_⟩
      have hne : g ≠ f := by
        rintro rfl
        cases hfree.2.symm.trans hg
      exact (Function.update_of_ne hne _ _).trans hg
  | inherit d =>
    simp only [OpenFiles.world, OpenFiles.inherit] at h
    split_ifs at h
    cases h
    exact ⟨id, id⟩
  | release d =>
    simp only [OpenFiles.world, OpenFiles.release] at h
    split_ifs at h
    cases h
    exact ⟨forget_some, id⟩
  | room room =>
    cases h
    exact ⟨id, id⟩

lemma close_desc_self : (k.close fd).desc fd = none := by
  unfold OpenFiles.close
  split
  · assumption
  · exact Function.update_self _ _ _

lemma close_desc_of_ne (h : g ≠ fd) : (k.close fd).desc g = k.desc g := by
  unfold OpenFiles.close
  split
  · rfl
  · exact Function.update_of_ne h _ _

lemma close_entry_some (h : (k.close fd).entry g e = some x) : k.entry g e = some x := by
  unfold OpenFiles.close at h
  split at h
  · exact h
  · exact forget_some h

/-- The entry of a closed number is left exactly if something else refers to the description. -/
lemma close_entry (hd : k.desc fd = some d) :
    (k.close fd).entry fd d = if k.own d - 1 + k.others d = 0 then none else k.entry fd d := by
  have hclose : (k.close fd).entry = k.forget d (k.own d - 1 + k.others d) := by
    unfold OpenFiles.close
    split
    · next h => cases h.symm.trans hd
    · next d' h =>
      cases h.symm.trans hd
      rfl
  rw [hclose, OpenFiles.forget]
  simp only [and_true]

end Hbm.Descriptions
