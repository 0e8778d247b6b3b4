import Hbm.Erasure
import Hbm.InterestSet
import Hbm.Turns

/-!
Stop and restart: what `epoll_wait` has reported when `execute` returns.

The kernel reports an edge once. `execute` returns when it comes to the stop event in
`m_events`, wherever it stands and whatever is pending there. In every run in which the stop
event is the last one of its batch and the callbacks of this batch leave nothing, everything
reported has been served by then.
-/

namespace Hbm.Stopping

open Hbm.Mask Hbm.Epoll Hbm.Handlers Hbm.Registration Hbm.Run Hbm.Execute Hbm.Dispatch
open Hbm.Construct Hbm.Turns Hbm.Erasure

variable {H : Type*}

/-! ### What the history says about an event -/

def reports (d : Dir) (fd : Fd) (rs : List (Fd × EpollEvent)) : Bool :=
  rs.any fun r => decide (r.1 = fd) && has r.2.events d.bit

/-- The direction was reported, and since then no callback of it has returned zero or less. -/
def unserved (d : Dir) (fd : Fd) : List (Obs H) → Bool
  | [] => false
  | .report rs :: log => reports d fd rs || unserved d fd log
  | .result d' fd' r :: log =>
    if d' = d ∧ fd' = fd ∧ r ≤ 0 then false else unserved d fd log
  | _ :: log => unserved d fd log

/-- The next `epoll_wait` may report the direction without a new edge. -/
def Reportable (k : Interest) (fd : Fd) (d : Dir) : Prop :=
  ∃ ev, k.reg fd = some ev ∧ has ev.events d.bit = true ∧ has (k.edge fd) d.bit = true

/-- When `execute` has returned 0, what was reported has been served or will be reported again. -/
def NothingLost (stopFd : Fd) (s : St H Interest) : Prop :=
  s.pc = .out (some 0) → ∀ fd ≠ stopFd, ∀ d, unserved d fd s.log = true →
    Reportable s.lo.kernel fd d

/-- Runs without erasures and exceptions. -/
def Allowed : Label H (Kernel.World Interest) → Prop
  | .call _ (.erase ..) => False
  | .throws _ => False
  | _ => True

/-- The condition on the steps: the stop event is the last one of its batch, and the callbacks
dispatched in this batch leave nothing. -/
def Clean (s : St H Interest) : Label H (Kernel.World Interest) → Prop
  | .fill rs => ∀ r ∈ rs.dropLast, r.2.ptr ≠ none
  | .ret .loop r => s.drains .loop = [] →
      (∃ n < s.lo.eventCount.toNat, (s.lo.events n).ptr = none) → r ≤ 0
  | _ => True

lemma unserved_stored (d d' : Dir) (fd fd' : Fd) (eh : Option H) (log : List (Obs H)) :
    unserved d fd (stored d' fd' eh ++ log) = unserved d fd log := by
  rcases eh with _ | h
  · rfl
  · by_cases hfd : fd' = -1
    · simp [stored, hfd]
    · simp [stored, hfd, unserved]

variable {s t : St H Interest} {stopFd : Fd}

/-! ### The table, the interest set and the batch -/

/-- A registered direction has a handler. -/
def Handled (infos : EventInfos H) (reg : Fd → Option EpollEvent) : Prop :=
  ∀ fd ev p, reg fd = some ev → ev.ptr = some p → ∀ d : Dir, has ev.events d.bit = true →
    (handler infos fd d).isSome

lemma handled_add {l : EventLoop H Interest} {d : Dir} {fd : Fd} (eh : Option H) {a : Addr}
    {ha : l.eventInfos.mem a = none} (hh : Handled l.eventInfos (RegKernel.reg l.kernel)) :
    Handled (addHandler d l fd eh a ha).1.eventInfos
      (RegKernel.reg (addHandler d l fd eh a ha).1.kernel) := by
  rcases eh with _ | h
  · exact hh
  by_cases hfd : fd = -1
  · subst hfd
    rw [addHandler_neg]
    exact hh
  intro k ev p hr hp d' hd'
  have hgrow : (handler l.eventInfos k d').isSome →
      (handler (addHandler d l fd (some h) a ha).1.eventInfos k d').isSome := by
    intro hold
    by_cases hk : k = fd ∧ d' = d
    · obtain ⟨rfl, rfl⟩ := hk
      rw [handler_addHandler_self hfd]
      rfl
    · rwa [handler_addHandler_of_ne _ hk]
  rw [reg_addHandler d h ha hfd] at hr
  split at hr
  · by_cases hk : k = fd
    · subst hk
      rw [Function.update_self] at hr
      cases hr
      rw [handler, find_addHandler_self d h ha hfd, Option.bind_some]
      rwa [(matches_eventOf d _ _ h).dir d'] at hd'
    · rw [Function.update_of_ne hk] at hr
      exact hgrow (hh k ev p hr hp d' hd')
  · exact hgrow (hh k ev p hr hp d' hd')

structure Base (stopFd : Fd) (s : St H Interest) : Prop where
  inv : Erasure.Inv s
  inStep : InStep stopFd s.lo
  handled : Handled s.lo.eventInfos (RegKernel.reg s.lo.kernel)
  ready : Ready s
  idle : IdleOff s

lemma ready_fill {rs : List (Fd × EpollEvent)}
    (hh : Handled s.lo.eventInfos (RegKernel.reg s.lo.kernel))
    (h : step s (.fill rs) = some t) : Ready t := by
  obtain ⟨hpc, k, hk, rfl⟩ := step_fill h
  intro n d p hn hp hpend
  simp only [armed_def, armedAt, Int.toNat_natCast] at hn
  simp only [writeSlots_map _ hn] at hp ⊢
  simp only [Pending, writeSlots_map _ hn] at hpend
  obtain ⟨ev, hev, hptr, hdir⟩ := RegKernel.report_mem hk (List.getElem_mem hn)
  exact hh _ ev p hev (by rw [← hptr, hp]) d (hdir d hpend)

lemma ready_call {th : Thread} {c : Call H} (hr : Ready s)
    (hl : Allowed (.call th c : Label H (Kernel.World Interest))) (h : CallStep s th c t) :
    Ready t := by
  cases h with
  | added d fd g a ha hr' => exact ready_add hr (some g) ha rfl rfl rfl
  | refused d fd eh a ha hr' => exact ready_add hr eh ha rfl rfl rfl
  | erased d fd g hh => exact absurd hl id
  | absent d fd hh => exact hr

lemma handled_step {l : Label H (Kernel.World Interest)}
    (hh : Handled s.lo.eventInfos (RegKernel.reg s.lo.kernel)) (hl : Allowed l)
    (h : step s l = some t) : Handled t.lo.eventInfos (RegKernel.reg t.lo.kernel) := by
  by_cases hc : ∃ th c, l = .call th c
  · obtain ⟨th, c, rfl⟩ := hc
    have hlo := call_lo (step_call h)
    generalize t.lo = l' at hlo ⊢
    cases hlo with
    | add d fd eh a ha => exact handled_add eh hh
    | erase d fd => exact absurd hl id
  · obtain ⟨h1, h2⟩ := step_frame h fun th c he => hc ⟨th, c, he⟩
    rw [h1, h2]
    exact hh

lemma base_step (hs : Base stopFd s) {l : Label H (Kernel.World Interest)} (hl : Allowed l)
    (h : step s l = some t) : Base stopFd t := by
  have hreach : Reaching s l := by
    cases l with
    | call th c => cases c with
      | add => trivial
      | erase => exact absurd hl id
    | _ => trivial
  have hinv := inv_step delFailsUnregistered_interest hs.inv hreach h
  have hin := InterestSet.inStep_step hs.inStep h
  have hhan := handled_step hs.handled hl h
  cases l with
  | execute =>
    obtain ⟨r, hpc, -, rfl⟩ := step_execute h
    exact ⟨hinv, hin, hhan, hs.ready.of_le (by simp) rfl rfl (fun _ => rfl) (fun _ _ h => h),
      fun _ _ _ _ hid => absurd hid id⟩
  | fill rs =>
    have hready := ready_fill hs.handled h
    obtain ⟨-, k, -, rfl⟩ := step_fill h
    exact ⟨hinv, hin, hhan, hready, fun _ _ _ _ hid => absurd hid id⟩
  | fail eintr =>
    obtain ⟨hpc, rfl⟩ := step_fail h
    exact ⟨hinv, hin, hhan, hs.ready.of_le (by simp) rfl rfl (fun _ => rfl) (fun _ _ h => h),
      fun _ _ _ _ hid => absurd hid id⟩
  | tau =>
    have ht := stepTau_cases h
    exact ⟨hinv, hin, hhan, ready_tau hs.ready ht, idle_tau hs.idle hs.inv.safe hs.ready ht⟩
  | call th c =>
    have hc := step_call h
    exact ⟨hinv, hin, hhan, ready_call hs.ready hl hc, idle_call hs.idle hc⟩
  | ret th r =>
    have hr := stepRet_cases h
    exact ⟨hinv, hin, hhan, ready_ret hs.ready hr, idle_ret hs.idle hr⟩
  | throws th => exact absurd hl id
  | world w =>
    obtain ⟨k, -, rfl⟩ := step_world h
    exact ⟨hinv, hin, hhan, hs.ready, hs.idle⟩

/-! ### The stop event -/

/-- Nothing is counted as left. -/
@[simp] def NoneLeft : Pc → Prop
  | .slot _ _ k => k = 0
  | .bit _ _ _ _ k => k = 0
  | .running _ _ _ _ k => k = 0
  | _ => True

structure Orderly (stopFd : Fd) (s : St H Interest) : Prop where
  stop : ∀ n < armed s, (s.lo.events n).ptr = none → s.src n = stopFd
  last : ∀ n < armed s, (s.lo.events n).ptr = none → n + 1 = armed s
  calm : ∀ n < armed s, (s.lo.events n).ptr = none → NoneLeft s.pc
  left : ∀ d, ∀ fd ≠ stopFd, unserved d fd s.log = true →
    ∃ n < armed s, s.src n = fd ∧ Pending s n d

/-- A step that keeps the batch. -/
lemma Orderly.of_same (hs : Orderly stopFd s) (harm : armed t = armed s) (hsrc : t.src = s.src)
    (hptr : ∀ n, (t.lo.events n).ptr = (s.lo.events n).ptr)
    (hcalm : ∀ n < armed s, (s.lo.events n).ptr = none → NoneLeft s.pc → NoneLeft t.pc)
    (hleft : ∀ d, ∀ fd ≠ stopFd, unserved d fd t.log = true → ∃ n < armed s,
      s.src n = fd ∧ Pending t n d) : Orderly stopFd t where
  stop := by
    intro n hn hp
    rw [hptr] at hp
    rw [harm] at hn
    rw [hsrc]
    exact hs.stop n hn hp
  last := by
    intro n hn hp
    rw [hptr] at hp
    rw [harm] at hn ⊢
    exact hs.last n hn hp
  calm := by
    intro n hn hp
    rw [hptr] at hp
    rw [harm] at hn
    exact hcalm n hn hp (hs.calm n hn hp)
  left := by
    intro d fd hfd hu
    rw [harm, hsrc]
    exact hleft d fd hfd hu

/-- A step after which no batch is left: everything reported has been served. -/
lemma orderly_of_empty (harm : armed t = 0)
    (hleft : ∀ d, ∀ fd ≠ stopFd, unserved d fd t.log = false) : Orderly stopFd t where
  stop := fun n hn => by omega
  last := fun n hn => by omega
  calm := fun n hn => by omega
  left := fun d fd hfd hu => by rw [hleft d fd hfd] at hu; cases hu

lemma noneLeft_next {round n k : ℕ} {d : Dir} {p : Addr} :
    NoneLeft (next round n d p k) ↔ k = 0 := by cases d <;> simp [next]

/-- Behind the last turn of a round in which nothing was left, everything has been served. -/
lemma Orderly.served (hs : Orderly stopFd s) (hi : IdleOff s) {round n : ℕ}
    (hpc : s.pc = .slot round n 0)
    (hend : ∀ m < armed s, (s.lo.events m).ptr ≠ none → m < n) (d : Dir) {fd : Fd}
    (hfd : fd ≠ stopFd) : unserved d fd s.log = false := by
  by_contra hu
  obtain ⟨m, hm, hsrc, hpd⟩ := hs.left d fd hfd (by simpa using hu)
  have hp : (s.lo.events m).ptr ≠ none := fun h0 => hfd (hsrc ▸ hs.stop m hm h0)
  refine hi m d (by rwa [armed_def, hpc] at hm) hp ?_ hpd
  rw [hpc]
  exact ⟨rfl, hend m hm hp⟩

lemma orderly_tau (hs : Orderly stopFd s) (hb : Base stopFd s) (h : Tau s t) :
    Orderly stopFd t := by
  have hsafe := safe_tau hb.inv.safe h
  cases h with
  | store ret eintr hpc pc hnew =>
    refine hs.of_same ?_ rfl (fun _ => rfl) ?_ hs.left
    · rcases hnew with ⟨rfl, rfl⟩ | rfl <;> simp [hpc]
    · rcases hnew with ⟨rfl, -⟩ | rfl <;> simp
  | lock hpc => exact hs.of_same (by simp [hpc]) rfl (fun _ => rfl) (by simp) hs.left
  | stop round n k hpc hn hp =>
    have hn' : n < armed s := by rw [armed_def, hpc]; simp only [armedAt]; omega
    have hlast := hs.last n hn' hp
    have hk : k = 0 := by
      have := hs.calm n hn' hp
      rwa [hpc] at this
    subst hk
    refine orderly_of_empty rfl fun d fd hfd => hs.served hb.idle hpc (fun m hm hp' => ?_) d hfd
    have hne : m ≠ n := by rintro rfl; exact hp' hp
    omega
  | enter round n k p hpc hn hp =>
    exact hs.of_same (by simp [hpc]) rfl (fun _ => rfl) (by simp [hpc]) hs.left
  | unlock round n hpc hn =>
    refine orderly_of_empty rfl fun d fd hfd => hs.served hb.idle hpc (fun m hm _ => ?_) d hfd
    rw [armed_def, hpc] at hm
    simp only [armedAt] at hm
    omega
  | again round n k hpc hn hne =>
    exact hs.of_same (by simp [hpc]) rfl (fun _ => rfl) (by simp) hs.left
  | skip round n d p k hpc hb' =>
    refine hs.of_same (armed_next (Or.inl hpc) rfl) rfl (fun _ => rfl) (fun _ _ _ hk => ?_) hs.left
    rw [hpc] at hk
    exact noneLeft_next.mpr hk
  | dangling round n d p k hpc hb' hm => exact absurd rfl hsafe.alive
  | empty round n d p k e hpc hb' hm he =>
    refine hs.of_same (armed_next (Or.inl hpc) rfl) rfl (fun _ => rfl) (fun _ _ _ hk => ?_) hs.left
    rw [hpc] at hk
    exact noneLeft_next.mpr hk
  | invoke round n d p k e g hpc hb' hm he =>
    exact hs.of_same (by simp [hpc]) rfl (fun _ => rfl) (by simp [hpc]) hs.left

/-- Only the direction that was served is turned off. -/
lemma pending_turnOffSlot {l : EventLoop H Interest} {n m : ℕ} {d e : Dir}
    (h : has (l.events m).events e.bit = true) (hne : ¬(m = n ∧ e = d)) :
    has ((turnOffSlot l n d).events m).events e.bit = true := by
  by_cases hm : m = n
  · subst hm
    have he : d.bit &&& e.bit = 0#32 := Dir.bit_disjoint fun h => hne ⟨rfl, h.symm⟩
    simp only [turnOffSlot, Function.update_self]
    rw [has_clear_of_disjoint he]
    exact h
  · simpa [turnOffSlot, Function.update_of_ne hm] using h

lemma orderly_ret (hs : Orderly stopFd s) {th : Thread} {r : ℤ}
    (hok : Clean s (.ret th r)) (h : Ret s th r t) : Orderly stopFd t := by
  cases h with
  | again f rest hd hr => exact hs.of_same rfl rfl (fun _ => rfl) (fun _ _ _ h => h) hs.left
  | drained f rest hd hr => exact hs.of_same rfl rfl (fun _ => rfl) (fun _ _ _ h => h) hs.left
  | more round n d p k hd ht hpc hr =>
    subst ht
    have harm : armed s = s.lo.eventCount.toNat := by rw [armed_def, hpc]; rfl
    refine hs.of_same (armed_next (Or.inr hpc) rfl) rfl (fun _ => rfl) ?_ ?_
    · intro m hm hp _
      have := hok hd ⟨m, by omega, hp⟩
      omega
    · intro e fd hfd hu
      have hr' : ¬ r ≤ 0 := by omega
      rw [unserved, if_neg fun h => hr' h.2.2] at hu
      exact hs.left e fd hfd hu
  | done round n d p k hd ht hpc hr =>
    refine hs.of_same (armed_next (Or.inr hpc) rfl) rfl (fun m => turnOffSlot_ptr s.lo n m d) ?_ ?_
    · intro m _ _ hk
      rw [hpc] at hk
      exact noneLeft_next.mpr hk
    · intro e fd hfd hu
      simp only [unserved] at hu
      split at hu
      · cases hu
      · next hne =>
        obtain ⟨m, hm, hsrc, hpd⟩ := hs.left e fd hfd hu
        refine ⟨m, hm, hsrc, pending_turnOffSlot hpd ?_⟩
        rintro ⟨rfl, rfl⟩
        exact hne ⟨rfl, hsrc, hr⟩

lemma orderly_call (hs : Orderly stopFd s) {th : Thread} {c : Call H}
    (hl : Allowed (.call th c : Label H (Kernel.World Interest))) (h : CallStep s th c t) :
    Orderly stopFd t := by
  cases h with
  | added d fd g a ha hr =>
    refine hs.of_same (by simp) rfl (fun n => by simp) (fun _ _ _ h => h) fun e k hk hu => ?_
    simpa [Pending] using hs.left e k hk hu
  | refused d fd eh a ha hr =>
    refine hs.of_same (by simp) rfl (fun n => by simp) (fun _ _ _ h => h) fun e k hk hu => ?_
    rw [unserved, unserved_stored] at hu
    · simpa [Pending] using hs.left e k hk hu
    all_goals simp
  | erased d fd g hh => exact absurd hl id
  | absent d fd hh => exact hs

lemma orderly_fill (hs : Orderly stopFd s) (hb : Base stopFd s) {rs : List (Fd × EpollEvent)}
    (hok : Clean s (.fill rs)) (h : step s (.fill rs) = some t) : Orderly stopFd t := by
  obtain ⟨hpc, k, hk, rfl⟩ := step_fill h
  have hold : ∀ d, ∀ fd ≠ stopFd, unserved d fd s.log = false := by
    intro d fd hfd
    by_contra hu
    obtain ⟨n, hn, -⟩ := hs.left d fd hfd (by simpa using hu)
    rw [armed_def, hpc] at hn
    exact absurd hn (Nat.not_lt_zero n)
  refine ⟨fun n hn hp => ?_, fun n hn hp => ?_, fun n hn hp => trivial, fun d fd hfd hu => ?_⟩
  · simp only [armed_def, armedAt, Int.toNat_natCast] at hn
    simp only [writeSlots_map _ hn] at hp ⊢
    by_contra hne
    obtain ⟨ev, hev, hptr, -⟩ := RegKernel.report_mem hk (List.getElem_mem hn)
    -- every other descriptor is registered with the address of its entry
    have hag := hb.inStep _ hne
    rw [hev] at hag
    rcases hf : s.lo.eventInfos.find rs[n].1 with _ | ⟨p, e⟩
    · rw [hf] at hag
      exact hag
    · rw [hf] at hag
      have := Matches.ptr hag
      rw [← hptr, hp] at this
      cases this
  · simp only [armed_def, armedAt, Int.toNat_natCast] at hn ⊢
    simp only [writeSlots_map _ hn] at hp
    by_contra hlt
    refine hok rs[n] ?_ hp
    rw [List.mem_iff_getElem]
    exact ⟨n, by rw [List.length_dropLast]; omega, by rw [List.getElem_dropLast]⟩
  · simp only [unserved, hold d fd hfd, Bool.or_false, reports, List.any_eq_true,
      Bool.and_eq_true, decide_eq_true_eq] at hu
    obtain ⟨r, hr, hfd', hd⟩ := hu
    obtain ⟨n, hn, rfl⟩ := List.mem_iff_getElem.mp hr
    refine ⟨n, by simpa using hn, ?_, ?_⟩
    · simp only [writeSlots_map _ hn]
      exact hfd'
    · simp only [Pending, writeSlots_map _ hn]
      exact hd

lemma orderly_step (hs : Orderly stopFd s) (hb : Base stopFd s)
    {l : Label H (Kernel.World Interest)} (hl : Allowed l) (hok : Clean s l)
    (h : step s l = some t) : Orderly stopFd t := by
  cases l with
  | execute =>
    obtain ⟨r, hpc, -, rfl⟩ := step_execute h
    exact hs.of_same (by simp [hpc]) rfl (fun _ => rfl) (by simp) hs.left
  | fill rs => exact orderly_fill hs hb hok h
  | fail eintr =>
    obtain ⟨hpc, rfl⟩ := step_fail h
    exact hs.of_same (by simp [hpc]) rfl (fun _ => rfl) (by simp) hs.left
  | tau => exact orderly_tau hs hb (stepTau_cases h)
  | call th c => exact orderly_call hs hl (step_call h)
  | ret th r => exact orderly_ret hs hok (stepRet_cases h)
  | throws th => exact absurd hl id
  | world w =>
    obtain ⟨k, -, rfl⟩ := step_world h
    exact hs.of_same rfl rfl (fun _ => rfl) (fun _ _ _ h => h) hs.left

lemma Constructed.base (hs : Constructed stopFd s) : Base stopFd s := by
  refine ⟨Constructed.inv hs, hs.inStep, ?_, ?_, ?_⟩
  · exact fun fd ev p hr hp => absurd hp (hs.no_ptr hr)
  · intro n d p hn
    rw [armed_def, hs.pc] at hn
    exact absurd hn (Nat.not_lt_zero n)
  · intro n d _ _ hid
    rw [hs.pc] at hid
    exact absurd hid id

lemma Constructed.orderly (hs : Constructed stopFd s) : Orderly stopFd s :=
  orderly_of_empty (by rw [armed_def, hs.pc]; rfl) fun d fd _ => by rw [hs.log]; rfl

/-- **Nothing is lost over stop and restart**, in every run of any number of `execute` calls in
which the stop event is the last one of its batch and the callbacks of this batch leave nothing:
whenever `execute` has returned 0, everything reported so far has been served. -/
theorem nothing_lost {ls : List (Label H (Kernel.World Interest))} (hs : Constructed stopFd s)
    (hls : ∀ l ∈ ls, Allowed l) (hok : Meets step Clean s ls) (h : run step s ls = some t) :
    NothingLost stopFd t := by
  have hall : Meets step (fun u l => Allowed l ∧ Clean u l) s ls :=
    (meets_of_forall (fun l hl _ => hls l hl) s).and hok
  obtain ⟨-, ho⟩ : Base stopFd t ∧ Orderly stopFd t :=
    run_inv_of_meets (I := fun u => Base stopFd u ∧ Orderly stopFd u) (fun _ _ _ hi hl h =>
      ⟨base_step hi.1 hl.1 h, orderly_step hi.2 hi.1 hl.1 hl.2 h⟩)
      ⟨Constructed.base hs, Constructed.orderly hs⟩ hall h
  intro hpc fd hfd d hu
  obtain ⟨n, hn, -⟩ := ho.left d fd hfd hu
  rw [armed_def, hpc] at hn
  exact absurd hn (Nat.not_lt_zero n)

/-- Descriptor 3 is registered and gets ready, `stop` is called, and `execute`. -/
def readyAndStop : List (Label ℕ (Kernel.World Interest)) :=
  [.call (.other 0) (.add .inp 3 (some 10) 1), .ret (.other 0) 0, .world (3, EPOLLIN),
    .world (5, EPOLLIN), .execute]

def stopLast : List (Label ℕ (Kernel.World Interest)) :=
  readyAndStop ++ [.fill [(3, ⟨EPOLLIN, some 1⟩), (5, ⟨EPOLLIN, none⟩)], .tau, .tau, .tau, .tau,
    .ret .loop 0, .tau, .tau]

def stopFirst : List (Label ℕ (Kernel.World Interest)) :=
  readyAndStop ++ [.fill [(5, ⟨EPOLLIN, none⟩), (3, ⟨EPOLLIN, some 1⟩)], .tau, .tau, .tau]

lemma meets_stopLast : Meets step Clean (fresh 5) stopLast := by
  refine meets_of_forall (fun l hl s => ?_) _
  simp only [stopLast, readyAndStop, List.cons_append, List.nil_append, List.mem_cons,
    List.not_mem_nil, or_false] at hl
  rcases hl with rfl | rfl | rfl | rfl | rfl | rfl | rfl | rfl | rfl | rfl | rfl | rfl | rfl <;>
    simp [Clean]

theorem nothing_lost_stopLast : ∃ t, run step (fresh 5) stopLast = some t ∧
    t.pc = .out (some 0) ∧ NothingLost 5 t := by
  refine ⟨_, rfl, rfl, ?_⟩
  exact nothing_lost (constructed_fresh 5) (by simp [stopLast, readyAndStop, Allowed])
    meets_stopLast rfl

/-- With the stop event first, the event behind it is never served. -/
theorem lost_behind_stop : ¬ ∀ (t : St ℕ Interest) (ls : List (Label ℕ (Kernel.World Interest))),
    (∀ l ∈ ls, Allowed l) → run step (fresh 5) ls = some t → NothingLost 5 t := by
  intro h
  have hls : ∀ l ∈ stopFirst, Allowed l := by simp [stopFirst, readyAndStop, Allowed]
  obtain ⟨ev, -, -, he⟩ := h _ stopFirst hls rfl rfl 3 (by decide) .inp rfl
  exact absurd he (by decide)

end Hbm.Stopping
