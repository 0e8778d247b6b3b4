import Hbm.Descriptors
import Hbm.Registration

/-!
The event loop on the kernel with descriptors: registering a new descriptor, and erasing one
that is closed already.
-/

namespace Hbm.Closing

open Hbm.Epoll Hbm.Handlers Hbm.Registration Hbm.Descriptors

variable {H : Type*}

/-- Table and interest set have the descriptor with this input handler and nothing else. -/
def HasOnly (l : EventLoop H Files) (fd : Fd) (cb : H) : Prop :=
  ∃ p, l.eventInfos.find fd = some (p, ⟨some cb, none⟩) ∧
    RegKernel.reg l.kernel fd = some ⟨EPOLLIN ||| EPOLLET, some p⟩

/-- Nothing is left of a descriptor. -/
def Gone (l : EventLoop H Files) (fd : Fd) : Prop :=
  l.eventInfos.find fd = none ∧ RegKernel.reg l.kernel fd = none

variable {l : EventLoop H Files} {d : Dir} {fd : Fd} {h : H} {a : Addr}
  {ha : l.eventInfos.mem a = none}

lemma isOpen_ctl (k : Files) (op : CtlOp) (fd g : Fd) (ev : Option EpollEvent) :
    (Kernel.ctl k op fd ev).1.isOpen g = k.isOpen g := by
  change (k.ctl op fd ev).1.isOpen g = _
  unfold Files.ctl
  split <;> rfl

lemma accepts_eq (k : Files) (op : CtlOp) (fd : Fd) :
    RegKernel.accepts k op fd = (sensible (RegKernel.reg k fd) op && k.isOpen fd) := rfl

lemma isOpen_eraseHandler (g : Fd) :
    (eraseHandler d l fd).1.kernel.isOpen g = l.kernel.isOpen g := by
  rcases hh : handler l.eventInfos fd d with _ | h
  · rw [eraseHandler_none hh]
  · obtain ⟨op, ev, p, e, infos, -, -, hr, -⟩ := eraseHandler_some hh
    rw [hr]
    exact isOpen_ctl _ _ _ _ _

/-- What an erasure leaves of an entry. -/
def without (d : Dir) : Option (Addr × EventsHandlers H) → Option (Addr × EventsHandlers H)
  | none => none
  | some (p, e) =>
    if (e.get d).isSome then if (e.get d.other).isSome then some (p, e.set d none) else none
    else some (p, e)

lemma find_eraseHandler {K : Type*} [Kernel K] {l : EventLoop H K} :
    (eraseHandler d l fd).1.eventInfos.find fd = without d (l.eventInfos.find fd) := by
  rcases hh : handler l.eventInfos fd d with _ | h
  · rw [eraseHandler_none hh]
    rcases hf : l.eventInfos.find fd with _ | ⟨p, e⟩
    · rfl
    · rw [handler, hf] at hh
      simp only [Option.bind_some] at hh
      simp [without, hh]
  · obtain ⟨op, ev, p, e, infos, hf, he, -⟩ := eraseHandler_some hh
    rw [find_eraseHandler_self hh hf, hf]
    simp [without, he]

/-- Two erasures leave nothing of an entry with a handler. -/
lemma without_without_of_used {x : Option (Addr × EventsHandlers H)}
    (h : ∀ p e, x = some (p, e) → ∃ d : Dir, (e.get d).isSome = true) :
    without .out (without .inp x) = none := by
  rcases x with _ | ⟨p, ⟨i, o⟩⟩
  · rfl
  obtain ⟨d, hd⟩ := h p _ rfl
  rcases i with _ | i <;> rcases o with _ | o <;>
    simp_all [without, EventsHandlers.get, EventsHandlers.set, Dir.other]
  cases d <;> simp at hd

lemma without_without {x : Option (Addr × EventsHandlers H)} {ev : Option EpollEvent}
    (h : Agrees x ev) : without .out (without .inp x) = none := by
  refine without_without_of_used ?_
  rintro p e rfl
  rcases ev with _ | ev
  · exact absurd h id
  · exact Matches.used h

/-- An erasure on a descriptor that is not registered does nothing in the kernel. -/
lemma reg_eraseHandler_unregistered (hr : RegKernel.reg l.kernel fd = none) :
    RegKernel.reg (eraseHandler d l fd).1.kernel = RegKernel.reg l.kernel := by
  rcases hh : handler l.eventInfos fd d with _ | h
  · rw [eraseHandler_none hh]
  · obtain ⟨p, e, hf, hreg⟩ := reg_eraseHandler hh
    rw [hreg, if_neg]
    rw [accepts_eq, hr]
    unfold eraseOp
    split <;> simp [sensible]

/-- Registering a descriptor without entry and registration. -/
lemma hasOnly_add (hg : Gone l fd) (hopen : l.kernel.isOpen fd = true) :
    HasOnly (addEvent l fd (some h) a ha).1 fd h := by
  have hfd : fd ≠ -1 := by
    rintro rfl
    have := decide_eq_true_eq.mp hopen
    exact absurd this.1 (by decide)
  refine ⟨a, ?_, ?_⟩
  · rw [addEvent, find_addHandler_self .inp h ha hfd, target, hg.1]
    rfl
  · have hacc : RegKernel.accepts l.kernel (addOp l.eventInfos fd) fd = true := by
      rw [accepts_eq, hg.2, hopen, addOp, hg.1]
      rfl
    rw [addEvent, reg_addHandler .inp h ha hfd, if_pos hacc, Function.update_self, target, hg.1]
    rfl

/-- Registering a descriptor with an entry that is not registered fails. -/
lemma reg_add_unregistered {x : Addr × EventsHandlers H} (hf : l.eventInfos.find fd = some x)
    (hr : RegKernel.reg l.kernel fd = none) :
    RegKernel.reg (addEvent l fd (some h) a ha).1.kernel = RegKernel.reg l.kernel := by
  by_cases hfd : fd = -1
  · subst hfd
    rw [addEvent, addHandler_neg]
  · rw [addEvent, reg_addHandler .inp h ha hfd, if_neg]
    rw [accepts_eq, hr, addOp, hf]
    simp [sensible]

lemma reg_add_of_ne {k : Fd} (hk : k ≠ fd) :
    RegKernel.reg (addEvent l fd (some h) a ha).1.kernel k = RegKernel.reg l.kernel k := by
  by_cases hfd : fd = -1
  · subst hfd
    rw [addEvent, addHandler_neg]
  · rw [addEvent, reg_addHandler .inp h ha hfd]
    split
    · exact Function.update_of_ne hk _ _
    · rfl

lemma HasOnly.of_other {l' : EventLoop H Files} {cb : H} (hl : HasOnly l fd cb)
    (hfind : l'.eventInfos.find fd = l.eventInfos.find fd)
    (hreg : RegKernel.reg l'.kernel fd = RegKernel.reg l.kernel fd) : HasOnly l' fd cb := by
  obtain ⟨p, h1, h2⟩ := hl
  exact ⟨p, by rw [hfind, h1], by rw [hreg, h2]⟩

lemma HasOnly.handler_inp {cb : H} (hl : HasOnly l fd cb) :
    handler l.eventInfos fd .inp = some cb := by
  obtain ⟨p, h1, -⟩ := hl
  rw [handler, h1]
  rfl

/-- With nothing registered for the output the second erasure does nothing. -/
lemma HasOnly.eraseOutEvent_eq {cb : H} (hl : HasOnly l fd cb) :
    (eraseOutEvent l fd).1 = l := by
  obtain ⟨p, h1, -⟩ := hl
  have hh : handler l.eventInfos fd .out = none := by
    rw [handler, h1]
    rfl
  rw [eraseOutEvent, eraseHandler_none hh]

end Hbm.Closing
