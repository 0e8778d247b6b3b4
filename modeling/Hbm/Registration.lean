import Hbm.Handlers

/-!
The handler table and the interest set of the kernel stay in step.

`addHandler` chooses between `ADD` and `MOD`, `eraseHandler` between `MOD` and `DEL`, and both
rebuild the mask from the other direction. What they maintain together is that the interest
set is what the handler table says, the loop's own stop descriptor apart.
-/

namespace Hbm.Registration

open Hbm.Mask Hbm.Epoll Hbm.Handlers

variable {H K : Type*} [RegKernel K]

/-- The kernel's event of an entry: the entry's own address, edge triggered, a direction for
each handler, and there is one. -/
structure Matches (p : Addr) (e : EventsHandlers H) (ev : EpollEvent) : Prop where
  ptr : ev.ptr = some p
  edge : has ev.events EPOLLET = true
  dir : ∀ d : Dir, has ev.events d.bit = (e.get d).isSome
  used : ∃ d : Dir, (e.get d).isSome

/-- An entry of the handler table and the registration of its descriptor. -/
def Agrees : Option (Addr × EventsHandlers H) → Option EpollEvent → Prop
  | none, none => True
  | some (p, e), some ev => Matches p e ev
  | _, _ => False

/-- The interest set is what the handler table says, up to the stop descriptor. -/
def InStep (stopFd : Fd) (l : EventLoop H K) : Prop :=
  ∀ fd ≠ stopFd, Agrees (l.eventInfos.find fd) (RegKernel.reg l.kernel fd)

lemma Agrees.isSome {x : Option (Addr × EventsHandlers H)} {r : Option EpollEvent}
    (h : Agrees x r) : x.isSome = r.isSome := by
  rcases x with _ | ⟨p, e⟩ <;> rcases r with _ | ev <;> simp_all [Agrees]

variable {stopFd : Fd} {l : EventLoop H K} {d : Dir} {fd : Fd} {h : H} {a : Addr}
  {ha : l.eventInfos.mem a = none}

/-- What a registered entry has in the kernel. -/
lemma InStep.entry (hi : InStep stopFd l) (hs : fd ≠ stopFd) {p : Addr} {e : EventsHandlers H}
    (hf : l.eventInfos.find fd = some (p, e)) :
    ∃ ev, RegKernel.reg l.kernel fd = some ev ∧ Matches p e ev := by
  have hag := hi fd hs
  rw [hf] at hag
  rcases hr : RegKernel.reg l.kernel fd with _ | ev
  · rw [hr] at hag
    exact absurd hag id
  · rw [hr] at hag
    exact ⟨ev, rfl, hag⟩

/-- An operation on one descriptor that brings its entry and its registration in step. -/
lemma InStep.of_one (hi : InStep stopFd l) {l' : EventLoop H K}
    (hfind : ∀ k ≠ fd, l'.eventInfos.find k = l.eventInfos.find k)
    (hreg : ∀ k ≠ fd, RegKernel.reg l'.kernel k = RegKernel.reg l.kernel k)
    (hag : fd ≠ stopFd → Agrees (l'.eventInfos.find fd) (RegKernel.reg l'.kernel fd)) :
    InStep stopFd l' := by
  intro k hk
  by_cases hkf : k = fd
  · subst hkf; exact hag hk
  · rw [hfind k hkf, hreg k hkf]; exact hi k hk

lemma matches_eventOf (d : Dir) (e : EventsHandlers H) (p : Addr) (h : H) :
    Matches p (e.set d (some h)) (eventOf d e p) := by
  refine ⟨rfl, ?_, fun d' => ?_, d, by simp⟩
  · simp only [eventOf]
    split <;> simp
  · rcases Dir.eq_or_other d d' with rfl | rfl
    · simp only [eventOf]
      split <;> simp
    · rw [EventsHandlers.get_set_of_ne _ (Dir.other_ne d)]
      simp only [eventOf]
      split <;> simp_all

lemma matches_other (d : Dir) (e : EventsHandlers H) (p : Addr)
    (ho : (e.get d.other).isSome = true) :
    Matches p (e.set d none) ⟨d.other.bit ||| EPOLLET, some p⟩ := by
  refine ⟨rfl, has_single_edge _, fun d' => ?_, d.other, ?_⟩
  rcases Dir.eq_or_other d d' with rfl | rfl
  · simp [(Dir.other_ne d').symm]
  · simp [EventsHandlers.get_set_of_ne _ (Dir.other_ne d), ho]
  · rwa [EventsHandlers.get_set_of_ne _ (Dir.other_ne d)]

/-- The operation a registration of this descriptor uses. -/
def addOp (t : EventInfos H) (fd : Fd) : CtlOp :=
  if (t.find fd).isNone then .ADD else .MOD

/-- Whether a registration succeeds is up to the kernel alone. -/
lemma addHandler_ret (hfd : fd ≠ -1) : (addHandler d l fd (some h) a ha).2 =
    if RegKernel.accepts l.kernel (addOp l.eventInfos fd) fd then 0 else -1 := by
  obtain ⟨op, p, e, infos, hr, hc⟩ := addHandler_some d h ha hfd
  have hop : op = addOp l.eventInfos fd := by
    rcases hc with ⟨hf, rfl, -⟩ | ⟨hf, rfl, -⟩ <;> simp [addOp, hf]
  rw [hr]
  simp only [RegKernel.ctl_ret, hop]
  split <;> rfl

variable (d h ha) in
/-- What a registration leaves in the kernel. -/
lemma reg_addHandler (hfd : fd ≠ -1) : RegKernel.reg (addHandler d l fd (some h) a ha).1.kernel =
    if RegKernel.accepts l.kernel (addOp l.eventInfos fd) fd then
      Function.update (RegKernel.reg l.kernel) fd
        (some (eventOf d (target l.eventInfos fd a).2 (target l.eventInfos fd a).1))
    else RegKernel.reg l.kernel := by
  obtain ⟨op, p, e, infos, hr, hc⟩ := addHandler_some d h ha hfd
  rw [hr, RegKernel.ctl_reg]
  rcases hc with ⟨hf, rfl, rfl, rfl, -⟩ | ⟨hf, rfl, -⟩ <;> simp [addOp, target, hf, CtlOp.entry]

/-- An accepted registration keeps the two in step. -/
lemma inStep_addHandler (hi : InStep stopFd l) (hfd : fd ≠ -1)
    (hk : fd ≠ stopFd → RegKernel.accepts l.kernel (addOp l.eventInfos fd) fd = true) :
    InStep stopFd (addHandler d l fd (some h) a ha).1 := by
  have hreg := reg_addHandler d h ha hfd
  refine hi.of_one (fun k hkf => find_addHandler_of_ne (some h) hkf) (fun k hkf => ?_) fun hs => ?_
  · rw [hreg]
    split
    · exact Function.update_of_ne hkf _ _
    · rfl
  · rw [find_addHandler_self d h ha hfd, hreg, if_pos (hk hs), Function.update_self]
    exact matches_eventOf _ _ _ h

/-- The operation an erasure of this direction uses. -/
def eraseOp (t : EventInfos H) (d : Dir) (fd : Fd) : CtlOp :=
  if (handler t fd d.other).isSome then .MOD else .DEL

lemma eraseHandler_ret (hs : handler l.eventInfos fd d = some h) : (eraseHandler d l fd).2 =
    if RegKernel.accepts l.kernel (eraseOp l.eventInfos d fd) fd then 0 else -1 := by
  obtain ⟨op, ev, p, e, infos, hf, he, hr, hc⟩ := eraseHandler_some hs
  have hop : op = eraseOp l.eventInfos d fd := by
    rcases hc with ⟨ho, rfl, -⟩ | ⟨ho, rfl, -⟩ <;> simp [eraseOp, handler, hf, ho]
  rw [hr, RegKernel.ctl_ret, hop]

/-- An erasure leaves the other direction in the kernel, or nothing. -/
lemma reg_eraseHandler (hs : handler l.eventInfos fd d = some h) : ∃ p e,
    l.eventInfos.find fd = some (p, e) ∧
    RegKernel.reg (eraseHandler d l fd).1.kernel =
      if RegKernel.accepts l.kernel (eraseOp l.eventInfos d fd) fd then
        Function.update (RegKernel.reg l.kernel) fd
          (if (e.get d.other).isSome then some ⟨d.other.bit ||| EPOLLET, some p⟩ else none)
      else RegKernel.reg l.kernel := by
  obtain ⟨op, ev, p, e, infos, hf, he, hr, hc⟩ := eraseHandler_some hs
  refine ⟨p, e, hf, ?_⟩
  rw [hr, RegKernel.ctl_reg]
  rcases hc with ⟨ho, rfl, rfl, -⟩ | ⟨ho, rfl, rfl, -⟩ <;>
    simp [eraseOp, handler, hf, ho, CtlOp.entry]

/-- An accepted erasure keeps the two in step. -/
lemma inStep_eraseHandler (hi : InStep stopFd l) (hs : handler l.eventInfos fd d = some h)
    (hk : fd ≠ stopFd → RegKernel.accepts l.kernel (eraseOp l.eventInfos d fd) fd = true) :
    InStep stopFd (eraseHandler d l fd).1 := by
  obtain ⟨p, e, hf, hreg⟩ := reg_eraseHandler hs
  refine hi.of_one (fun k hkf => find_eraseHandler_of_ne hkf) (fun k hkf => ?_) fun hns => ?_
  · rw [hreg]
    split
    · exact Function.update_of_ne hkf _ _
    · rfl
  · rw [find_eraseHandler_self hs hf, hreg, if_pos (hk hns), Function.update_self]
    split
    · next ho => exact matches_other d e p ho
    · trivial

/-! ### The interest set that accepts every sensible operation -/

/-- In step, every operation the code chooses is a sensible one. -/
lemma InStep.sensible_add (hi : InStep stopFd l) (hs : fd ≠ stopFd) :
    sensible (RegKernel.reg l.kernel fd) (addOp l.eventInfos fd) = true := by
  have := (hi fd hs).isSome
  rcases hf : l.eventInfos.find fd with _ | x <;> simp_all [addOp, sensible]

lemma InStep.sensible_erase (hi : InStep stopFd l) (hns : fd ≠ stopFd)
    (hs : handler l.eventInfos fd d = some h) :
    sensible (RegKernel.reg l.kernel fd) (eraseOp l.eventInfos d fd) = true := by
  obtain ⟨p, e, hf, -⟩ := handler_eq_some.mp hs
  obtain ⟨ev, hev, -⟩ := hi.entry hns hf
  unfold eraseOp
  split <;> simp [sensible, hev]

end Hbm.Registration
