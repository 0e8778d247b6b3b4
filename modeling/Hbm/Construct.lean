import Hbm.Execute
import Hbm.Registration

/-!
The constructor of the event loop, and what the steps of the machine leave alone.

Only the four operations change the handler table and the interest set, so what is said about
the two is proved for the operations and holds in every run.
-/

namespace Hbm.Construct

open Hbm.Epoll Hbm.Handlers Hbm.Registration Hbm.Execute

variable {H K : Type*}

/-- `EventLoop::EventLoop` after `epoll_create` and `eventfd`; `none` is its exception. What is
in `m_events` is left open, as the constructor leaves it. -/
def construct [Kernel K] (events : ℕ → EpollEvent) (k : K) (stopFd : Fd) :
    Option (EventLoop H K) :=
  let c := Kernel.ctl k .ADD stopFd (some ⟨EPOLLIN ||| EPOLLET, none⟩)
  if c.2 = -1 then none
  else some { events := events, eventCount := 0, eventInfos := .empty, kernel := c.1 }

/-- A new event loop, on a new epoll descriptor, before any call. -/
structure Constructed [RegKernel K] (stopFd : Fd) (s : St H K) : Prop where
  lo : ∃ events k, (∀ fd, RegKernel.reg k fd = none) ∧ construct events k stopFd = some s.lo
  pc : s.pc = .out none
  drains : ∀ t, s.drains t = []
  log : s.log = []

variable [RegKernel K] {s t : St H K} {stopFd : Fd}

lemma construct_some {events : ℕ → EpollEvent} {k : K} {l : EventLoop H K}
    (h : construct events k stopFd = some l) :
    l = { events := events, eventCount := 0, eventInfos := .empty, kernel := l.kernel } ∧
      RegKernel.reg l.kernel =
        Function.update (RegKernel.reg k) stopFd (some ⟨EPOLLIN ||| EPOLLET, none⟩) := by
  simp only [construct] at h
  split at h
  · cases h
  · next hr =>
    cases h
    refine ⟨rfl, ?_⟩
    rw [RegKernel.ctl_ret] at hr
    rw [RegKernel.ctl_reg]
    split
    · rfl
    · next ha => rw [if_neg ha] at hr; exact absurd rfl hr

/-- After the constructor the table is empty and only the stop descriptor is registered. -/
lemma Constructed.members (hs : Constructed stopFd s) :
    s.lo.eventInfos = .empty ∧ s.lo.eventCount = 0 ∧ RegKernel.reg s.lo.kernel =
      Function.update (fun _ => none) stopFd (some ⟨EPOLLIN ||| EPOLLET, none⟩) := by
  obtain ⟨events, k, hk, hc⟩ := hs.lo
  obtain ⟨hl, hr⟩ := construct_some hc
  refine ⟨by rw [hl], by rw [hl], ?_⟩
  rw [hr, funext hk]

/-- No registration has an address. -/
lemma Constructed.no_ptr (hs : Constructed stopFd s) {fd : Fd} {ev : EpollEvent} {p : Addr}
    (hr : RegKernel.reg s.lo.kernel fd = some ev) : ev.ptr ≠ some p := by
  obtain ⟨-, -, hreg⟩ := hs.members
  rw [hreg] at hr
  by_cases hk : fd = stopFd
  · subst hk
    rw [Function.update_self] at hr
    cases hr
    nofun
  · rw [Function.update_of_ne hk] at hr
    cases hr

/-- A new event loop on the plain interest set. -/
def fresh (stopFd : Fd) : St H Interest where
  lo := {
    events := fun _ => ⟨0, none⟩
    eventCount := 0
    eventInfos := .empty
    kernel := ((⟨fun _ => none, fun _ => 0, 0⟩ : Interest).ctl .ADD stopFd
      (some ⟨EPOLLIN ||| EPOLLET, none⟩)).1 }
  pc := .out none
  drains := fun _ => []
  src := fun _ => stopFd
  log := []

lemma constructed_fresh (stopFd : Fd) : Constructed stopFd (fresh stopFd : St H Interest) where
  lo := ⟨fun _ => ⟨0, none⟩, ⟨fun _ => none, fun _ => 0, 0⟩, fun _ => rfl, rfl⟩
  pc := rfl
  drains := fun _ => rfl
  log := rfl

lemma Constructed.inStep (hs : Constructed stopFd s) : InStep stopFd s.lo := by
  obtain ⟨hinfos, -, hreg⟩ := hs.members
  intro fd hfd
  rw [hinfos, hreg, Function.update_of_ne hfd]
  trivial

/-- What a call does to the members is one of the two functions. -/
inductive CallLo (l : EventLoop H K) : Call H → EventLoop H K → Prop
  | add (d : Dir) (fd : Fd) (eh : Option H) (a : Addr) (ha : l.eventInfos.mem a = none) :
      CallLo l (.add d fd eh a) (addHandler d l fd eh a ha).1
  | erase (d : Dir) (fd : Fd) : CallLo l (.erase d fd) (eraseHandler d l fd).1

lemma call_lo {th : Thread} {c : Call H} (h : CallStep s th c t) : CallLo s.lo c t.lo := by
  cases h with
  | added d fd g a ha hr => exact .add d fd (some g) a ha
  | refused d fd eh a ha hr => exact .add d fd eh a ha
  | erased d fd g hh => exact .erase d fd
  | absent d fd hh =>
    have := CallLo.erase (l := s.lo) d fd
    rwa [eraseHandler_none hh] at this

/-- Every step but a call leaves the handler table and the interest set alone. -/
lemma step_frame {l : Label H (Kernel.World K)} (h : step s l = some t)
    (hl : ∀ th c, l ≠ .call th c) : t.lo.eventInfos = s.lo.eventInfos ∧
      RegKernel.reg t.lo.kernel = RegKernel.reg s.lo.kernel := by
  cases l with
  | execute =>
    obtain ⟨r, -, -, rfl⟩ := step_execute h
    exact ⟨rfl, rfl⟩
  | fill rs =>
    obtain ⟨-, k, hk, rfl⟩ := step_fill h
    exact ⟨rfl, RegKernel.report_reg hk⟩
  | fail eintr =>
    obtain ⟨-, rfl⟩ := step_fail h
    exact ⟨rfl, rfl⟩
  | tau => cases stepTau_cases h <;> exact ⟨rfl, rfl⟩
  | call th c => exact absurd rfl (hl th c)
  | ret th r => cases stepRet_cases h <;> exact ⟨rfl, rfl⟩
  | throws th => cases stepThrow_cases h <;> exact ⟨rfl, rfl⟩
  | world w =>
    obtain ⟨k, hk, rfl⟩ := step_world h
    exact ⟨rfl, RegKernel.world_reg hk⟩

/-- A property of the table and the interest set that every call keeps holds after every step. -/
lemma step_inv_of_call {I : EventInfos H → (Fd → Option EpollEvent) → Prop}
    (hcall : ∀ c l', CallLo s.lo c l' → I l'.eventInfos (RegKernel.reg l'.kernel))
    (hs : I s.lo.eventInfos (RegKernel.reg s.lo.kernel)) {l : Label H (Kernel.World K)}
    (h : step s l = some t) : I t.lo.eventInfos (RegKernel.reg t.lo.kernel) := by
  by_cases hl : ∃ th c, l = .call th c
  · obtain ⟨th, c, rfl⟩ := hl
    exact hcall c t.lo (call_lo (step_call h))
  · obtain ⟨h1, h2⟩ := step_frame h fun th c hc => hl ⟨th, c, hc⟩
    rw [h1, h2]
    exact hs

end Hbm.Construct
