import Hbm.Construct
import Hbm.Dispatch

/-!
Erasures from other threads, and the batch that `epoll_wait` is writing.

`m_events` is written by the kernel and `m_eventCount` stored after it, both outside the mutex.
An erasure between the two looks at the slots of the count before. In every run in which each
erasure that frees an entry reaches its slot, the loop calls what was registered last.
-/

namespace Hbm.Erasure

open Hbm.Mask Hbm.Epoll Hbm.Handlers Hbm.Registration Hbm.Run Hbm.Execute Hbm.Dispatch
open Hbm.Construct

variable {H K : Type*}

/-! ### What the history says about a handler -/

/-- The handler the history entry leaves for a direction of a descriptor, if it is about it. -/
def touch (d : Dir) (fd : Fd) : Obs H → Option (Option H)
  | .add d' fd' h => if fd' = fd ∧ d' = d then some (some h) else none
  | .erase d' fd' _ _ => if fd' = fd ∧ d' = d then some none else none
  | _ => none

/-- The handler registered last and not erased since, newest entry first. -/
def latest (d : Dir) (fd : Fd) (log : List (Obs H)) : Option H :=
  (log.findSome? (touch d fd)).join

/-- Each callback was the latest one of its direction and descriptor when it was called. -/
def CallsLatest : List (Obs H) → Prop
  | [] => True
  | .invoke _ _ d fd h :: log => latest d fd log = some h ∧ CallsLatest log
  | _ :: log => CallsLatest log

lemma latest_cons {d : Dir} {fd : Fd} {o : Obs H} (h : touch d fd o = none)
    (log : List (Obs H)) : latest d fd (o :: log) = latest d fd log := by
  simp [latest, h]

lemma latest_add (d d' : Dir) (fd fd' : Fd) (h : H) (log : List (Obs H)) :
    latest d fd (.add d' fd' h :: log) =
      if fd' = fd ∧ d' = d then some h else latest d fd log := by
  by_cases hk : fd' = fd ∧ d' = d <;> simp [latest, touch, hk]

lemma latest_erase (d d' : Dir) (fd fd' : Fd) (freed : Bool) (r : ℤ) (log : List (Obs H)) :
    latest d fd (.erase d' fd' freed r :: log) =
      if fd' = fd ∧ d' = d then none else latest d fd log := by
  by_cases hk : fd' = fd ∧ d' = d <;> simp [latest, touch, hk]

/-! ### The invariant -/

/-- Every pointer in the interest set leads to the entry of its descriptor. -/
def Covered (infos : EventInfos H) (reg : Fd → Option EpollEvent) : Prop :=
  ∀ fd ev p, reg fd = some ev → ev.ptr = some p → ∃ e, infos.find fd = some (p, e)

structure Inv [RegKernel K] (s : St H K) : Prop where
  safe : Safe s
  covered : Covered s.lo.eventInfos (RegKernel.reg s.lo.kernel)
  table : ∀ d fd, handler s.lo.eventInfos fd d = latest d fd s.log
  calls : CallsLatest s.log

/-- The condition on the steps: an erasure that frees an entry reaches its slot. -/
def Reaching {W : Type*} (s : St H K) : Label H W → Prop
  | .call _ c => Reaches s c
  | _ => True

variable [RegKernel K] {s t : St H K} {stopFd : Fd}

/-- The documented failures of `EPOLL_CTL_DEL`: the descriptor is not registered. -/
def DelFailsUnregistered (K : Type*) [RegKernel K] : Prop :=
  ∀ (k : K) (fd : Fd), RegKernel.accepts k .DEL fd = false → RegKernel.reg k fd = none

lemma covered_add {l : EventLoop H K} {d : Dir} {fd : Fd} (eh : Option H) {a : Addr}
    {ha : l.eventInfos.mem a = none} (hc : Covered l.eventInfos (RegKernel.reg l.kernel)) :
    Covered (addHandler d l fd eh a ha).1.eventInfos
      (RegKernel.reg (addHandler d l fd eh a ha).1.kernel) := by
  rcases eh with _ | h
  · exact hc
  by_cases hfd : fd = -1
  · subst hfd
    rw [addHandler_neg]
    exact hc
  intro k ev p hr hp
  rw [reg_addHandler d h ha hfd] at hr
  have hold : RegKernel.reg l.kernel k = some ev → ∃ e,
      (addHandler d l fd (some h) a ha).1.eventInfos.find k = some (p, e) := by
    intro hr'
    obtain ⟨e, hf⟩ := hc k ev p hr' hp
    exact find_addHandler_grows (some h) hf
  split at hr
  · by_cases hk : k = fd
    · subst hk
      rw [Function.update_self] at hr
      cases hr
      obtain rfl : (target l.eventInfos k a).1 = p := by simpa [eventOf] using hp
      exact ⟨_, find_addHandler_self d h ha hfd⟩
    · rw [Function.update_of_ne hk] at hr
      exact hold hr
  · exact hold hr

lemma covered_erase (hdel : DelFailsUnregistered K) {l : EventLoop H K} (d : Dir) (fd : Fd)
    (hc : Covered l.eventInfos (RegKernel.reg l.kernel)) :
    Covered (eraseHandler d l fd).1.eventInfos
      (RegKernel.reg (eraseHandler d l fd).1.kernel) := by
  rcases hh : handler l.eventInfos fd d with _ | h
  · rw [eraseHandler_none hh]
    exact hc
  obtain ⟨p, e, hf, hreg⟩ := reg_eraseHandler hh
  intro k ev q hr hq
  rw [hreg] at hr
  by_cases hk : k = fd
  · subst hk
    rw [find_eraseHandler_self hh hf]
    by_cases ho : (e.get d.other).isSome = true
    · refine ⟨e.set d none, ?_⟩
      rw [if_pos ho] at hr ⊢
      split at hr
      · rw [Function.update_self] at hr
        cases hr
        cases hq
        rfl
      · obtain ⟨e', hf'⟩ := hc k ev q hr hq
        rw [hf] at hf'
        cases hf'
        rfl
    · -- an entry is freed when its descriptor is not registered any more
      rw [if_neg ho] at hr
      split at hr
      · rw [Function.update_self] at hr
        cases hr
      · next hacc =>
        have hop : eraseOp l.eventInfos d k = .DEL := by simp [eraseOp, handler, hf, ho]
        rw [hop] at hacc
        rw [hdel l.kernel k (by simpa using hacc)] at hr
        cases hr
  · rw [find_eraseHandler_of_ne hk]
    split at hr
    · rw [Function.update_of_ne hk] at hr
      exact hc k ev q hr hq
    · exact hc k ev q hr hq

lemma covered_call (hdel : DelFailsUnregistered K) {c : Call H} {l l' : EventLoop H K}
    (hc : Covered l.eventInfos (RegKernel.reg l.kernel)) (h : CallLo l c l') :
    Covered l'.eventInfos (RegKernel.reg l'.kernel) := by
  cases h with
  | add d fd eh a ha => exact covered_add eh hc
  | erase d fd => exact covered_erase hdel d fd hc

/-- A report fills the slots with the entries of distinct descriptors. -/
lemma safe_fill {rs : List (Fd × EpollEvent)}
    (hc : Covered s.lo.eventInfos (RegKernel.reg s.lo.kernel))
    (h : step s (.fill rs) = some t) : Safe t := by
  obtain ⟨hpc, k, hk, rfl⟩ := step_fill h
  have entry : ∀ n (hn : n < rs.length) p, rs[n].2.ptr = some p →
      ∃ e, s.lo.eventInfos.find rs[n].1 = some (p, e) := by
    intro n hn p hp
    obtain ⟨ev, hev, hptr, -⟩ := RegKernel.report_mem hk (List.getElem_mem hn)
    exact hc _ ev p hev (by rw [← hptr, hp])
  refine ⟨by simp, ?_, ?_, by simp⟩
  · intro m n p hm hn h1 h2
    simp only [armed_def, armedAt, Int.toNat_natCast] at hm hn
    simp only [writeSlots_map _ hm] at h1
    simp only [writeSlots_map _ hn] at h2
    obtain ⟨e1, hf1⟩ := entry m hm p h1
    obtain ⟨e2, hf2⟩ := entry n hn p h2
    have heq := NodeMap.find_addr_inj hf1 hf2
    have hnd := RegKernel.report_nodup hk
    rw [List.nodup_iff_injective_get] at hnd
    have := @hnd ⟨m, by simpa using hm⟩ ⟨n, by simpa using hn⟩ (by simpa using heq)
    simpa using this
  · intro n d p hn hp _
    simp only [armed_def, armedAt, Int.toNat_natCast] at hn
    simp only [writeSlots_map _ hn] at hp
    obtain ⟨e, hf⟩ := entry n hn p hp
    exact ⟨e, by simp only [writeSlots_map _ hn]; exact hf⟩

/-! ### The table follows the history -/

lemma table_call {th : Thread} {c : Call H}
    (htab : ∀ d fd, handler s.lo.eventInfos fd d = latest d fd s.log)
    (h : CallStep s th c t) (d : Dir) (fd : Fd) :
    handler t.lo.eventInfos fd d = latest d fd t.log := by
  have hadd : ∀ (d' : Dir) (fd' : Fd) (g : H) (a : Addr) (ha : s.lo.eventInfos.mem a = none),
      fd' ≠ -1 → handler (addHandler d' s.lo fd' (some g) a ha).1.eventInfos fd d =
        latest d fd (.add d' fd' g :: s.log) := by
    intro d' fd' g a ha hfd
    rw [latest_add]
    split
    · next hk => obtain ⟨rfl, rfl⟩ := hk; exact handler_addHandler_self hfd
    · next hk =>
      rw [handler_addHandler_of_ne _ fun h => hk ⟨h.1.symm, h.2.symm⟩]
      exact htab d fd
  cases h with
  | added d' fd' g a ha hr =>
    refine hadd d' fd' g a ha ?_
    rintro rfl
    rw [addHandler_neg] at hr
    cases hr
  | refused d' fd' eh a ha hr =>
    rw [latest_cons rfl]
    rcases eh with _ | g
    · exact htab d fd
    · by_cases hfd : fd' = -1
      · subst hfd
        rw [addHandler_neg]
        exact htab d fd
      · rw [stored, if_neg hfd]
        exact hadd d' fd' g a ha hfd
  | erased d' fd' g hh =>
    rw [latest_erase]
    split
    · next hk => obtain ⟨rfl, rfl⟩ := hk; exact handler_eraseHandler_self
    · next hk =>
      rw [handler_eraseHandler_of_ne fun h => hk ⟨h.1.symm, h.2.symm⟩]
      exact htab d fd
  | absent d' fd' hh => exact htab d fd

lemma callsLatest_stored {d : Dir} {fd : Fd} {eh : Option H} {log : List (Obs H)}
    (h : CallsLatest log) : CallsLatest (stored d fd eh ++ log) := by
  rcases eh with _ | g
  · exact h
  · by_cases hfd : fd = -1
    · simpa [stored, hfd] using h
    · simpa [stored, hfd, CallsLatest] using h

lemma calls_call {th : Thread} {c : Call H} (hcl : CallsLatest s.log) (h : CallStep s th c t) :
    CallsLatest t.log := by
  cases h with
  | added d fd g a ha hr => exact hcl
  | refused d fd eh a ha hr => exact callsLatest_stored (H := H) hcl
  | erased d fd g hh => exact hcl
  | absent d fd hh => exact hcl

lemma inv_tau (hi : Inv s) (h : Tau s t) : Inv t := by
  have hsafe := safe_tau hi.safe h
  cases h with
  | invoke round n d p k e g hpc hb hm he =>
    refine ⟨hsafe, hi.covered, fun d' fd => ?_, ?_, hi.calls⟩
    · rw [latest_cons rfl]
      exact hi.table d' fd
    · obtain ⟨hn, hp⟩ := hi.safe.here round n d p k (Or.inl hpc)
      obtain ⟨e', hf⟩ := hi.safe.live n d p hn hp hb
      rw [(NodeMap.find_eq_some.mp hf).2] at hm
      cases hm
      rw [← hi.table, handler, hf]
      exact he
  | _ => exact ⟨hsafe, hi.covered, hi.table, hi.calls⟩

lemma inv_ret (hi : Inv s) {th : Thread} {r : ℤ} (h : Ret s th r t) : Inv t := by
  have hsafe := safe_ret hi.safe h
  cases h with
  | drained f rest hd hr =>
    refine ⟨hsafe, hi.covered, fun d' fd => ?_, hi.calls⟩
    rw [latest_cons rfl, latest_cons rfl]
    exact hi.table d' fd
  | again f rest hd hr | more round n d p k hd ht hpc hr | done round n d p k hd ht hpc hr =>
    refine ⟨hsafe, hi.covered, fun d' fd => ?_, hi.calls⟩
    rw [latest_cons rfl]
    exact hi.table d' fd

lemma inv_step (hdel : DelFailsUnregistered K) (hi : Inv s) {l : Label H (Kernel.World K)}
    (hl : Reaching s l) (h : step s l = some t) : Inv t := by
  have hcov : Covered t.lo.eventInfos (RegKernel.reg t.lo.kernel) :=
    step_inv_of_call (fun _ _ hc => covered_call hdel hi.covered hc) hi.covered h
  cases l with
  | execute =>
    obtain ⟨r, hpc, -, rfl⟩ := step_execute h
    exact ⟨hi.safe.of_le (by simp) (by simp) rfl rfl (fun _ => rfl) (fun _ _ h => h) (by simp),
      hcov, hi.table, hi.calls⟩
  | fill rs =>
    have hsafe := safe_fill hi.covered h
    obtain ⟨hpc, k, -, rfl⟩ := step_fill h
    refine ⟨hsafe, hcov, fun d fd => ?_, hi.calls⟩
    rw [latest_cons rfl]
    exact hi.table d fd
  | fail eintr =>
    obtain ⟨hpc, rfl⟩ := step_fail h
    exact ⟨hi.safe.of_le (by simp) (by simp) rfl rfl (fun _ => rfl) (fun _ _ h => h) (by simp),
      hcov, hi.table, hi.calls⟩
  | tau => exact inv_tau hi (stepTau_cases h)
  | call th c =>
    have hc := step_call h
    exact ⟨safe_call hi.safe hl hc, hcov, table_call hi.table hc, calls_call hi.calls hc⟩
  | ret th r => exact inv_ret hi (stepRet_cases h)
  | throws th =>
    have hsafe := safe_throw hi.safe (stepThrow_cases h)
    cases stepThrow_cases h <;> exact ⟨hsafe, hi.covered, hi.table, hi.calls⟩
  | world w =>
    obtain ⟨k, -, rfl⟩ := step_world h
    exact ⟨hi.safe.of_le hi.safe.alive le_rfl rfl rfl (fun _ => rfl) (fun _ _ h => h)
      hi.safe.here, hcov, hi.table, hi.calls⟩

lemma Constructed.inv (hs : Constructed stopFd s) : Inv s := by
  obtain ⟨hinfos, -, -⟩ := hs.members
  refine ⟨⟨by simp [hs.pc], by simp [hs.pc], by simp [hs.pc], by simp [hs.pc]⟩, ?_, ?_, ?_⟩
  · exact fun fd ev p hr hp => absurd hp (hs.no_ptr hr)
  · intro d fd
    rw [hinfos, hs.log]
    rfl
  · rw [hs.log]
    trivial

/-- **No erased handler is called**, in every run of the loop thread and of calls from any
thread in which each erasure that frees an entry reaches the slot that points to it: no freed
entry is followed, and every callback is the one registered last and not erased since. -/
theorem erased_not_called {ls : List (Label H (Kernel.World K))}
    (hdel : DelFailsUnregistered K) (hs : Constructed stopFd s) (hok : Meets step Reaching s ls)
    (h : run step s ls = some t) : t.pc ≠ .dangling ∧ CallsLatest t.log := by
  have hi : Inv t :=
    run_inv_of_meets (fun _ _ _ hi hl h => inv_step hdel hi hl h) (Constructed.inv hs) hok h
  exact ⟨hi.safe.alive, hi.calls⟩

omit [RegKernel K] in
lemma reaching_of_armed {W : Type*} (h : armed s ≤ s.lo.eventCount.toNat) (l : Label H W) :
    Reaching s l := by
  cases l with
  | call th c => exact reaches_of_armed h c
  | _ => trivial

lemma delFailsUnregistered_interest : DelFailsUnregistered Interest := by
  intro k fd h
  have h' : (k.reg fd).isSome = false := h
  change k.reg fd = none
  simpa using h'

/-- Descriptor 3 is registered and reported. -/
def reported : List (Label ℕ (Kernel.World Interest)) :=
  [.call (.other 0) (.add .inp 3 (some 10) 1), .ret (.other 0) 0, .world (3, EPOLLIN), .execute,
    .fill [(3, ⟨EPOLLIN, some 1⟩)]]

/-- It is erased after the store of `m_eventCount`. -/
def eraseAfterStore : List (Label ℕ (Kernel.World Interest)) :=
  reported ++ [.tau, .call (.other 0) (.erase .inp 3), .tau, .tau, .tau, .tau, .tau]

/-- It is erased before. -/
def eraseBeforeStore : List (Label ℕ (Kernel.World Interest)) :=
  reported ++ [.call (.other 0) (.erase .inp 3), .tau, .tau, .tau, .tau]

lemma meets_eraseAfterStore : Meets step Reaching (fresh 5) eraseAfterStore := by
  refine meets_step trivial rfl (meets_step trivial rfl (meets_step trivial rfl
    (meets_step trivial rfl (meets_step trivial rfl (meets_step trivial rfl ?_)))))
  refine meets_step (reaching_of_armed (by decide) _) rfl ?_
  exact meets_of_forall (by simp [Reaching]) _

theorem erased_not_called_afterStore : ∃ t, run step (fresh 5) eraseAfterStore = some t ∧
    t.pc = .wait ∧ (t.pc ≠ .dangling ∧ CallsLatest t.log) := by
  refine ⟨_, rfl, rfl, ?_⟩
  exact erased_not_called delFailsUnregistered_interest (constructed_fresh 5)
    meets_eraseAfterStore rfl

/-- Before the store the erasure does not reach the slot, and the loop follows its pointer. -/
theorem erased_followed : ¬ ∀ (t : St ℕ Interest) (ls : List (Label ℕ (Kernel.World Interest))),
    run step (fresh 5) ls = some t → t.pc ≠ .dangling ∧ CallsLatest t.log := by
  intro h
  exact (h _ eraseBeforeStore rfl).1 rfl

end Hbm.Erasure
