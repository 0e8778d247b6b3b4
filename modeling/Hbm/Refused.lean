import Hbm.Construct
import Hbm.Descriptors

/-!
Registrations that the kernel refuses.

The table is changed before `epoll_ctl` is asked, and not changed back. So a refused
registration leaves its handler in the table, and for a new descriptor an entry that a later
registration under the same number takes for a registered one.
-/

namespace Hbm.Refused

open Hbm.Epoll Hbm.Handlers Hbm.Registration Hbm.Run Hbm.Execute Hbm.Construct Hbm.Descriptors

variable {H K : Type*} [RegKernel K]

/-- A registration that fails leaves the table and the interest set as they are. -/
def FailsClean (d : Dir) (l : EventLoop H K) (fd : Fd) (eh : Option H) (a : Addr)
    (ha : l.eventInfos.mem a = none) : Prop :=
  (addHandler d l fd eh a ha).2 = -1 →
    (addHandler d l fd eh a ha).1.eventInfos = l.eventInfos ∧
      RegKernel.reg (addHandler d l fd eh a ha).1.kernel = RegKernel.reg l.kernel

/-- There is nothing to register, the kernel accepts it, or it is registered already. -/
def Accepted (l : EventLoop H K) (d : Dir) (fd : Fd) (eh : Option H) : Prop :=
  eh = none ∨ fd = -1 ∨ RegKernel.accepts l.kernel (addOp l.eventInfos fd) fd = true ∨
    handler l.eventInfos fd d = eh

variable {l : EventLoop H K} {d : Dir} {fd : Fd} {eh : Option H} {h : H} {a : Addr}
  {ha : l.eventInfos.mem a = none}

/-- Only registering what is there leaves the table as it is. -/
lemma addHandler_eventInfos_eq_iff (hfd : fd ≠ -1) :
    (addHandler d l fd (some h) a ha).1.eventInfos = l.eventInfos ↔
      handler l.eventInfos fd d = some h := by
  obtain ⟨op, p, e, infos, hr, hc⟩ := addHandler_some d h ha hfd
  rw [hr]
  rcases hc with ⟨hf, -, rfl, rfl, rfl⟩ | ⟨hf, -, rfl⟩
  · constructor
    · exact fun he => absurd he (NodeMap.emplace_ne_self ha)
    · intro he
      rw [handler, hf] at he
      cases he
  · rw [NodeMap.assign_eq_self_iff hf, EventsHandlers.set_eq_self_iff, handler, hf]
    rfl

lemma failsClean_iff : FailsClean d l fd eh a ha ↔ Accepted l d fd eh := by
  unfold FailsClean Accepted
  rcases eh with _ | h
  · simp
  by_cases hfd : fd = -1
  · subst hfd
    simp
  rw [addHandler_ret hfd, reg_addHandler d h ha hfd, addHandler_eventInfos_eq_iff hfd]
  by_cases hacc : RegKernel.accepts l.kernel (addOp l.eventInfos fd) fd = true
  · simp [hacc]
  · simp [hacc, hfd]

/-- The condition on the steps: registrations are as above, and erasures are not refused. -/
def Accepting {W : Type*} (s : St H K) : Label H W → Prop
  | .call _ (.add d fd eh _) => Accepted s.lo d fd eh
  | .call _ (.erase d fd) => handler s.lo.eventInfos fd d = none ∨
      RegKernel.accepts s.lo.kernel (eraseOp s.lo.eventInfos d fd) fd = true
  | _ => True

variable {s t : St H K} {stopFd : Fd}

lemma inStep_call (th : Thread) {c : Call H} {l' : EventLoop H K} (hi : InStep stopFd s.lo)
    (hok : Accepting (W := Unit) s (.call th c)) (hc : CallLo s.lo c l') : InStep stopFd l' := by
  cases hc with
  | add d fd eh a ha =>
    rcases eh with _ | h
    · exact hi
    by_cases hfd : fd = -1
    · subst hfd
      rw [addHandler_neg]
      exact hi
    by_cases hacc : RegKernel.accepts s.lo.kernel (addOp s.lo.eventInfos fd) fd = true
    · exact inStep_addHandler hi hfd fun _ => hacc
    · have hret : (addHandler d s.lo fd (some h) a ha).2 = -1 := by
        rw [addHandler_ret hfd, if_neg hacc]
      obtain ⟨h1, h2⟩ := failsClean_iff.mpr hok hret
      intro k hk
      rw [h1, h2]
      exact hi k hk
  | erase d fd =>
    rcases hh : handler s.lo.eventInfos fd d with _ | h
    · rw [eraseHandler_none hh]
      exact hi
    · refine inStep_eraseHandler hi hh fun _ => ?_
      have hok' : handler s.lo.eventInfos fd d = none ∨ _ := hok
      rw [hh] at hok'
      exact hok'.resolve_left (by simp)

lemma inStep_step {l : Label H (Kernel.World K)} (hi : InStep stopFd s.lo)
    (hok : Accepting s l) (h : step s l = some t) : InStep stopFd t.lo := by
  by_cases hl : ∃ th c, l = .call th c
  · obtain ⟨th, c, rfl⟩ := hl
    refine inStep_call th hi ?_ (call_lo (step_call h))
    cases c <;> exact hok
  · obtain ⟨h1, h2⟩ := step_frame h fun th c hc => hl ⟨th, c, hc⟩
    intro k hk
    rw [h1, h2]
    exact hi k hk

/-- **Failed registrations.** One leaves the table and the interest set as they were if and only
if there was nothing to register, the kernel accepted it, or the same handler was registered
already. In a run of such registrations the two stay in step, and registering a descriptor on
which the kernel accepts every sensible operation succeeds. -/
theorem failed_registration :
    (∀ (l : EventLoop H K) (d : Dir) (fd : Fd) (eh : Option H) (a : Addr)
      (ha : l.eventInfos.mem a = none), FailsClean d l fd eh a ha ↔ Accepted l d fd eh) ∧
    ∀ (stopFd : Fd) (s t : St H K) (ls : List (Label H (Kernel.World K))),
      Constructed stopFd s → Meets step Accepting s ls → run step s ls = some t →
      InStep stopFd t.lo ∧ ∀ d fd h a ha, fd ≠ -1 → fd ≠ stopFd →
        (∀ op, sensible (RegKernel.reg t.lo.kernel fd) op = true →
          RegKernel.accepts t.lo.kernel op fd = true) →
        (addHandler d t.lo fd (some h) a ha).2 = 0 := by
  refine ⟨fun l d fd eh a ha => failsClean_iff, fun stopFd s t ls hs hok h => ?_⟩
  have hi : InStep stopFd t.lo :=
    run_inv_of_meets (I := fun u => InStep stopFd u.lo)
      (fun _ _ _ hi hl h => inStep_step hi hl h) hs.inStep hok h
  refine ⟨hi, fun d fd g a ha hfd hns hvalid => ?_⟩
  rw [addHandler_ret hfd, if_pos (hvalid _ (hi.sensible_add hns))]

/-- A new event loop whose stop descriptor 0 is the only open one. -/
def onlyStop : St ℕ Files where
  lo := {
    events := fun _ => ⟨0, none⟩
    eventCount := 0
    eventInfos := .empty
    kernel := (Files.none.socket.1.ctl .ADD 0 (some ⟨EPOLLIN ||| EPOLLET, none⟩)).1 }
  pc := .out none
  drains := fun _ => []
  src := fun _ => 0
  log := []

lemma constructed_onlyStop : Constructed 0 onlyStop where
  lo := ⟨fun _ => ⟨0, none⟩, Files.none.socket.1, fun _ => rfl, rfl⟩
  pc := rfl
  drains := fun _ => rfl
  log := rfl

/-- Nothing is registered without a descriptor or a handler, and descriptor 1 when it is open. -/
def whenOpen : List (Label ℕ (Kernel.World Files)) :=
  [.call .loop (.add .inp (-1) (some 10) 1), .call .loop (.add .inp 1 none 1), .world (),
    .call .loop (.add .inp 1 (some 11) 1), .ret .loop 0]

/-- The output of descriptor 1 can be registered as well. -/
theorem failed_registration_whenOpen : ∃ t, run step onlyStop whenOpen = some t ∧
    ∃ ha, (addHandler .out t.lo 1 (some 12) 2 ha).2 = 0 := by
  have hok : Meets step Accepting onlyStop whenOpen :=
    meets_step (.inr (.inl rfl)) rfl <| meets_step (.inl rfl) rfl <| meets_step trivial rfl <|
      meets_step (.inr (.inr (.inl rfl))) rfl <| meets_step trivial rfl trivial
  obtain ⟨-, hadds⟩ := failed_registration.2 0 onlyStop _ whenOpen constructed_onlyStop hok rfl
  exact ⟨_, rfl, rfl, hadds .out 1 12 2 rfl (by decide) (by decide) fun op hop => by
    change (_ && _) = true
    rw [Bool.and_eq_true]
    exact ⟨hop, rfl⟩⟩

/-- Descriptor 1 is registered before it is open, and again when it is. -/
def tooEarly : List (Label ℕ (Kernel.World Files)) :=
  [.call .loop (.add .inp 1 (some 10) 1), .world (), .call .loop (.add .inp 1 (some 11) 2)]

/-- The refused registration stays in the table, and the later one fails as well. -/
theorem refused_stays : Constructed 0 onlyStop ∧
    ¬ FailsClean .inp onlyStop.lo 1 (some 10) 1 rfl ∧
    ∃ t, run step onlyStop tooEarly = some t ∧ t.lo.kernel.isOpen 1 = true ∧
      t.log = [.added .inp 1 (some 11) (-1), .add .inp 1 11, .added .inp 1 (some 10) (-1),
        .add .inp 1 10] := by
  refine ⟨constructed_onlyStop, fun h => ?_, _, rfl, rfl, rfl⟩
  rcases failsClean_iff.mp h with h | h | h | h
  · cases h
  · cases h
  · exact absurd h (by decide)
  · exact absurd h (by decide)

end Hbm.Refused
