import Hbm.Construct

/-!
Runs of the event loop on a kernel that accepts every sensible operation.

The table and the interest set stay in step, so every operation the code chooses is a sensible
one and none fails. What a call returns is then decided by its arguments and the table.
-/

namespace Hbm.InterestSet

open Hbm.Epoll Hbm.Handlers Hbm.Registration Hbm.Run Hbm.Execute Hbm.Construct

variable {H : Type*} {s t : St H Interest} {stopFd : Fd}

/-! ### One operation -/

section Operation

variable {l : EventLoop H Interest} {d : Dir} {fd : Fd} {a : Addr}

lemma accepts_eq (k : Interest) (op : CtlOp) (fd : Fd) :
    RegKernel.accepts k op fd = sensible (RegKernel.reg k fd) op := rfl

lemma failed_ctl {k : Interest} {op : CtlOp} {fd : Fd} (ev : Option EpollEvent)
    (h : sensible (RegKernel.reg k fd) op = true) :
    (Kernel.ctl k op fd ev).1.failed = k.failed := by
  have hk : sensible (k.reg fd) op = true := h
  change (k.ctl op fd ev).1.failed = k.failed
  rw [Interest.ctl, if_pos hk]

/-- What a registration does: it registers the handler, or returns `-1` and does nothing; the
other direction and the other descriptors keep their handlers. -/
structure Adds (l : EventLoop H Interest) (d : Dir) (fd : Fd) (eh : Option H)
    (r : EventLoop H Interest × ℤ) : Prop where
  ret : r.2 = 0 ↔ eh.isSome ∧ fd ≠ -1
  done : r.2 = 0 → handler r.1.eventInfos fd d = eh
  others : ∀ k d', ¬(k = fd ∧ d' = d) → handler r.1.eventInfos k d' = handler l.eventInfos k d'
  refused : r.2 ≠ 0 → r = (l, -1)
  failed : r.1.kernel.failed = l.kernel.failed

/-- What an erasure does: it removes the handler, or returns `-1` and does nothing; the other
direction and the other descriptors keep their handlers. -/
structure Removes (l : EventLoop H Interest) (d : Dir) (fd : Fd)
    (r : EventLoop H Interest × ℤ) : Prop where
  ret : r.2 = 0 ↔ (handler l.eventInfos fd d).isSome
  done : handler r.1.eventInfos fd d = none
  others : ∀ k d', ¬(k = fd ∧ d' = d) → handler r.1.eventInfos k d' = handler l.eventInfos k d'
  refused : r.2 ≠ 0 → r = (l, -1)
  failed : r.1.kernel.failed = l.kernel.failed

lemma adds_addHandler (hi : InStep stopFd l) (hs : fd ≠ stopFd) (eh : Option H)
    (ha : l.eventInfos.mem a = none) : Adds l d fd eh (addHandler d l fd eh a ha) := by
  have hothers : ∀ k d', ¬(k = fd ∧ d' = d) →
      handler (addHandler d l fd eh a ha).1.eventInfos k d' = handler l.eventInfos k d' :=
    fun k d' hne => handler_addHandler_of_ne eh hne
  rcases eh with _ | h
  · exact ⟨by simp, by simp, hothers, fun _ => rfl, rfl⟩
  by_cases hfd : fd = -1
  · subst hfd
    rw [addHandler_neg] at hothers ⊢
    exact ⟨by simp, by simp, hothers, fun _ => rfl, rfl⟩
  have hok := hi.sensible_add hs
  have hret : (addHandler d l fd (some h) a ha).2 = 0 := by
    rw [addHandler_ret hfd, accepts_eq, if_pos hok]
  refine ⟨by simp [hret, hfd], fun _ => ?_, hothers, fun h0 => absurd hret h0, ?_⟩
  · exact handler_addHandler_self hfd
  · obtain ⟨op, p, e, infos, hr, hc⟩ := addHandler_some d h ha hfd
    have hop : op = addOp l.eventInfos fd := by
      rcases hc with ⟨hf, rfl, -⟩ | ⟨hf, rfl, -⟩ <;> simp [addOp, hf]
    rw [hr]
    exact failed_ctl _ (by rw [hop]; exact hok)

lemma removes_eraseHandler (hi : InStep stopFd l) (hs : fd ≠ stopFd) :
    Removes l d fd (eraseHandler d l fd) := by
  have hdone : handler (eraseHandler d l fd).1.eventInfos fd d = none := handler_eraseHandler_self
  have hothers : ∀ k d', ¬(k = fd ∧ d' = d) →
      handler (eraseHandler d l fd).1.eventInfos k d' = handler l.eventInfos k d' :=
    fun k d' hne => handler_eraseHandler_of_ne hne
  rcases hh : handler l.eventInfos fd d with _ | h
  · refine ⟨?_, hdone, hothers, ?_, ?_⟩ <;> simp [eraseHandler_none hh, hh]
  · have hok := hi.sensible_erase hs hh
    have hret : (eraseHandler d l fd).2 = 0 := by
      rw [eraseHandler_ret hh, accepts_eq, if_pos hok]
    refine ⟨by simp [hret, hh], hdone, hothers, fun h0 => absurd hret h0, ?_⟩
    obtain ⟨op, ev, p, e, infos, hf, he, hr, hc⟩ := eraseHandler_some hh
    have hop : op = eraseOp l.eventInfos d fd := by
      rcases hc with ⟨ho, rfl, -⟩ | ⟨ho, rfl, -⟩ <;> simp [eraseOp, handler, hf, ho]
    rw [hr]
    exact failed_ctl _ (by rw [hop]; exact hok)

end Operation

/-! ### What the calls have registered -/

/-- What a call makes of the handler registered for a direction of a descriptor. -/
def afterCall (fd : Fd) (d : Dir) (g : Option H) : Call H → Option H
  | .add d' fd' eh _ => if (fd = fd' ∧ d = d') ∧ fd ≠ -1 ∧ eh.isSome then eh else g
  | .erase d' fd' => if fd = fd' ∧ d = d' then none else g

def afterLabel {W : Type*} (fd : Fd) (d : Dir) (g : Option H) : Label H W → Option H
  | .call _ c => afterCall fd d g c
  | _ => g

/-- The handler registered by the calls of a run, told from these alone: the last one that was
given for the direction, unless it was erased since. -/
def registered {W : Type*} (fd : Fd) (d : Dir) (ls : List (Label H W)) : Option H :=
  ls.foldl (afterLabel fd d) none

lemma handler_call {c : Call H} {l l' : EventLoop H Interest} (h : CallLo l c l') (fd : Fd)
    (d : Dir) : handler l'.eventInfos fd d = afterCall fd d (handler l.eventInfos fd d) c := by
  cases h with
  | add d' fd' eh a ha =>
    simp only [afterCall]
    by_cases hne : fd = fd' ∧ d = d'
    · obtain ⟨rfl, rfl⟩ := hne
      rcases eh with _ | g
      · simp
      · by_cases hfd : fd = -1
        · subst hfd
          simp
        · simp [hfd, handler_addHandler_self hfd]
    · rw [handler_addHandler_of_ne eh hne, if_neg fun h => hne h.1]
  | erase d' fd' =>
    simp only [afterCall]
    split_ifs with hne
    · obtain ⟨rfl, rfl⟩ := hne
      exact handler_eraseHandler_self
    · exact handler_eraseHandler_of_ne hne

lemma handler_step {l : Label H (Kernel.World Interest)} (h : step s l = some t) (fd : Fd)
    (d : Dir) :
    handler t.lo.eventInfos fd d = afterLabel fd d (handler s.lo.eventInfos fd d) l := by
  cases l with
  | call th c => exact handler_call (call_lo (step_call h)) fd d
  | _ => rw [(step_frame h nofun).1]; rfl

/-- The table holds what the calls have registered. -/
lemma handler_eq_registered {ls : List (Label H (Kernel.World Interest))}
    (hs : Constructed stopFd s) (h : run step s ls = some t) (fd : Fd) (d : Dir) :
    handler t.lo.eventInfos fd d = registered fd d ls := by
  have hempty : handler s.lo.eventInfos fd d = none := by
    rw [hs.members.1]
    rfl
  rw [foldl_of_run (fun _ _ _ hl => handler_step hl fd d) h, hempty]
  rfl

/-! ### Runs -/

/-- What the returns in the history say. -/
def Returned (stopFd : Fd) : Obs H → Prop
  | .added _ fd eh r => fd ≠ stopFd → (r = 0 ↔ eh.isSome ∧ fd ≠ -1) ∧ (r = 0 ∨ r = -1)
  | .erase _ fd _ r => fd ≠ stopFd → r = 0
  | _ => True

structure Inv (stopFd : Fd) (s : St H Interest) : Prop where
  inStep : InStep stopFd s.lo
  drains : ∀ th, ∀ f ∈ s.drains th, f.fd ≠ -1
  log : ∀ o ∈ s.log, Returned stopFd o

lemma inStep_call {c : Call H} {l l' : EventLoop H Interest} (hi : InStep stopFd l)
    (h : CallLo l c l') : InStep stopFd l' := by
  cases h with
  | add d fd eh a ha =>
    rcases eh with _ | g
    · exact hi
    · by_cases hfd : fd = -1
      · subst hfd
        rw [addHandler_neg]
        exact hi
      · exact inStep_addHandler hi hfd fun hs => by rw [accepts_eq]; exact hi.sensible_add hs
  | erase d fd =>
    rcases hh : handler l.eventInfos fd d with _ | g
    · rw [eraseHandler_none hh]
      exact hi
    · refine inStep_eraseHandler hi hh fun hs => ?_
      rw [accepts_eq]
      exact hi.sensible_erase hs hh

lemma inStep_step {l : Label H (Kernel.World Interest)} (hi : InStep stopFd s.lo)
    (h : step s l = some t) : InStep stopFd t.lo :=
  step_inv_of_call (I := fun infos reg => ∀ fd ≠ stopFd, Agrees (infos.find fd) (reg fd))
    (fun _ _ hc => inStep_call hi hc) hi h

/-- A step that only removes drains and records no return. -/
lemma Inv.of_less (hs : Inv stopFd s) (hi : InStep stopFd t.lo)
    (hd : ∀ th, ∀ f ∈ t.drains th, f ∈ s.drains th) (new : List (Obs H))
    (hlog : t.log = new ++ s.log) (hnew : ∀ o ∈ new, Returned stopFd o) : Inv stopFd t where
  inStep := hi
  drains := fun th f hf => hs.drains th f (hd th f hf)
  log := by
    intro o ho
    rw [hlog, List.mem_append] at ho
    rcases ho with ho | ho
    · exact hnew o ho
    · exact hs.log o ho

lemma mem_drains_of_rest {drains : Thread → List (Drain H)} {th : Thread} {f : Drain H}
    {rest : List (Drain H)} (hd : drains th = f :: rest) (th' : Thread) :
    ∀ g ∈ Function.update drains th rest th', g ∈ drains th' := by
  intro g hg
  by_cases h : th' = th
  · subst h
    rw [Function.update_self] at hg
    rw [hd]
    exact List.mem_cons_of_mem _ hg
  · rwa [Function.update_of_ne h] at hg

lemma inv_call (hs : Inv stopFd s) {th : Thread} {c : Call H} (h : CallStep s th c t) :
    Inv stopFd t := by
  have hi := inStep_call hs.inStep (call_lo h)
  cases h with
  | added d fd g a ha hr =>
    refine ⟨hi, fun th' f hf => ?_, fun o ho => ?_⟩
    · have hfd : fd ≠ -1 := by
        rintro rfl
        rw [addHandler_neg] at hr
        cases hr
      by_cases hth : th' = th
      · subst hth
        simp only [Function.update_self, List.mem_cons] at hf
        rcases hf with rfl | hf
        · exact hfd
        · exact hs.drains th' f hf
      · simp only [Function.update_of_ne hth] at hf
        exact hs.drains th' f hf
    · rcases List.mem_cons.mp ho with rfl | ho
      · trivial
      · exact hs.log o ho
  | refused d fd eh a ha hr =>
    refine hs.of_less hi (fun _ _ hf => hf) (_ :: stored d fd eh) rfl fun o ho => ?_
    rcases List.mem_cons.mp ho with rfl | ho
    swap
    · obtain ⟨g, -, -, rfl⟩ := mem_stored.mp ho
      trivial
    intro hns
    have hspec := adds_addHandler (d := d) hs.inStep hns eh ha
    refine ⟨hspec.ret, ?_⟩
    by_cases h0 : (addHandler d s.lo fd eh a ha).2 = 0
    · exact Or.inl h0
    · exact Or.inr (by rw [hspec.refused h0])
  | erased d fd g hh =>
    refine hs.of_less hi (fun _ _ hf => hf) [_] rfl fun o ho => ?_
    rw [List.mem_singleton] at ho
    subst ho
    intro hns
    exact (removes_eraseHandler hs.inStep hns).ret.mpr (by rw [hh]; rfl)
  | absent d fd hh => exact hs

lemma inv_step (hs : Inv stopFd s) {l : Label H (Kernel.World Interest)}
    (h : step s l = some t) : Inv stopFd t := by
  have hi := inStep_step hs.inStep h
  have same : ∀ th, ∀ f ∈ s.drains th, f ∈ s.drains th := fun _ _ hf => hf
  cases l with
  | execute =>
    obtain ⟨r, -, -, rfl⟩ := step_execute h
    exact hs.of_less hi same [] rfl (by simp)
  | fill rs =>
    obtain ⟨-, k, -, rfl⟩ := step_fill h
    exact hs.of_less hi same [_] rfl (by simp [Returned])
  | fail eintr =>
    obtain ⟨-, rfl⟩ := step_fail h
    exact hs.of_less hi same [] rfl (by simp)
  | tau =>
    cases stepTau_cases h with
    | invoke round n d p k e g hpc hb hm he =>
      exact hs.of_less hi same [_] rfl (by simp [Returned])
    | _ => exact hs.of_less hi same [] rfl (by simp)
  | call th c => exact inv_call hs (step_call h)
  | ret th r =>
    cases stepRet_cases h with
    | again f rest hd hr => exact hs.of_less hi same [_] rfl (by simp [Returned])
    | drained f rest hd hr =>
      refine hs.of_less hi (mem_drains_of_rest hd) [_, _] rfl ?_
      have hfd := hs.drains th f (by rw [hd]; simp)
      simp [Returned, hfd]
    | more round n d p k hd ht hpc hr => exact hs.of_less hi same [_] rfl (by simp [Returned])
    | done round n d p k hd ht hpc hr => exact hs.of_less hi same [_] rfl (by simp [Returned])
  | throws th =>
    cases stepThrow_cases h with
    | drain f rest hd => exact hs.of_less hi (mem_drains_of_rest hd) [] rfl (by simp)
    | caught round n d p k hd ht hpc => exact hs.of_less hi same [] rfl (by simp)
  | world w =>
    obtain ⟨k, -, rfl⟩ := step_world h
    exact hs.of_less hi same [] rfl (by simp)

lemma inv_run {ls : List (Label H (Kernel.World Interest))} (hs : Constructed stopFd s)
    (h : run step s ls = some t) : Inv stopFd t := by
  refine run_inv (fun _ _ _ hs h => inv_step hs h) ⟨hs.inStep, ?_, ?_⟩ h
  · simp [hs.drains]
  · simp [hs.log]

/-- **The handler table and the interest set stay in step**, in every run of calls from any
thread and from inside callbacks. A descriptor has an entry if and only if it is registered,
with the address of this entry, edge triggered, and with a direction for each handler set, of
which there is one; and the handlers are those that the calls have registered and not erased. So no
control operation fails, a registration returns 0 if and only if there is a handler and a
descriptor to register, and an erasure if and only if there was one; otherwise they return -1 and
change nothing. -/
theorem table_in_step {ls : List (Label H (Kernel.World Interest))} (hs : Constructed stopFd s)
    (h : run step s ls = some t) :
    (∀ fd ≠ stopFd, Agrees (t.lo.eventInfos.find fd) (t.lo.kernel.reg fd)) ∧
      (∀ fd d, handler t.lo.eventInfos fd d = registered fd d ls) ∧
      (∀ d fd eh a ha, fd ≠ stopFd → Adds t.lo d fd eh (addHandler d t.lo fd eh a ha)) ∧
      (∀ d fd, fd ≠ stopFd → Removes t.lo d fd (eraseHandler d t.lo fd)) ∧
      ∀ o ∈ t.log, Returned stopFd o := by
  have hi := inv_run hs h
  exact ⟨hi.inStep, handler_eq_registered hs h,
    fun d fd eh a ha hns => adds_addHandler hi.inStep hns eh ha,
    fun d fd hns => removes_eraseHandler hi.inStep hns, hi.log⟩

/-- Both directions are registered and the input is erased, twice. -/
def bothThenOut : List (Label ℕ (Kernel.World Interest)) :=
  [.call (.other 0) (.add .inp 3 (some 10) 1), .ret (.other 0) 1, .ret (.other 0) 0,
    .call (.other 0) (.add .out 3 (some 11) 2), .ret (.other 0) 0,
    .call (.other 0) (.erase .inp 3), .call (.other 0) (.erase .inp 3)]

theorem table_in_step_bothThenOut : ∃ t, run step (fresh 5) bothThenOut = some t ∧
    t.lo.kernel.reg 3 = some ⟨EPOLLOUT ||| EPOLLET, some 1⟩ ∧
    handler t.lo.eventInfos 3 .inp = none ∧ handler t.lo.eventInfos 3 .out = some 11 ∧
    (eraseHandler .inp t.lo 3).2 = -1 ∧ (eraseHandler .out t.lo 3).2 = 0 := by
  obtain ⟨-, hregistered, -, hremoves, -⟩ := table_in_step (constructed_fresh 5)
    (show run step (fresh 5) bothThenOut = some _ from rfl)
  have hin := hregistered 3 .inp
  have hout := hregistered 3 .out
  refine ⟨_, rfl, rfl, hin, hout, ?_, ?_⟩
  · have hspec := hremoves .inp 3 (by decide)
    have hret : (eraseHandler .inp _ 3).2 ≠ 0 := fun h0 => by
      have := hspec.ret.mp h0
      rw [hin] at this
      exact absurd this (by decide)
    rw [hspec.refused hret]
  · exact (hremoves .out 3 (by decide)).ret.mpr (by rw [hout]; decide)

end Hbm.InterestSet
