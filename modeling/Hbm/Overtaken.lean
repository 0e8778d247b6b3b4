import Hbm.Overlap

/-!
How two invocations come to overlap.

The machine with the beginning of every invocation goes through the same states as the event loop
itself. From a step that the condition of the safety theorem forbids the scheduler can lead it to
two invocations at once, so no weaker condition on the steps would do.
-/

namespace Hbm.Overtaken

open Hbm.Mask Hbm.Epoll Hbm.Handlers Hbm.Registration Hbm.Execute Hbm.Construct Hbm.Run
open Hbm.Overlap

variable {H K : Type*}

/-! ### The same states -/

section Table

variable [Kernel K] {lo : EventLoop H K} {d : Dir} {fd : Fd}

lemma owned_add {eh : Option H} {a : Addr} {ha : lo.eventInfos.mem a = none}
    (h : lo.eventInfos.Owned) : (addHandler d lo fd eh a ha).1.eventInfos.Owned := by
  rcases eh with _ | x
  · exact h
  by_cases hfd : fd = -1
  · subst hfd
    rw [addHandler_neg]
    exact h
  obtain ⟨op, p, e, infos, hr, hc⟩ := addHandler_some d x ha hfd
  rw [hr]
  rcases hc with ⟨hf, -, rfl, rfl, rfl⟩ | ⟨hf, -, rfl⟩
  · exact h.emplace ha hf
  · exact h.assign hf

lemma owned_erase (h : lo.eventInfos.Owned) : (eraseHandler d lo fd).1.eventInfos.Owned := by
  rcases hh : handler lo.eventInfos fd d with _ | x
  · rw [eraseHandler_none hh]
    exact h
  · obtain ⟨op, ev, p, e, infos, hf, -, hr, hc⟩ := eraseHandler_some hh
    rw [hr]
    rcases hc with ⟨-, -, -, rfl⟩ | ⟨-, -, -, rfl⟩
    · exact h.assign hf
    · exact h.erase

end Table

variable {s t u : Overlap.St H K}

lemma inProgress_of_begun {θ : Thread} (h : s.begun θ = true) : inProgress s θ = occupied s θ := by
  rw [inProgress, if_pos h, occupied]

lemma inProgress_congr {θ : Thread} {b : Thread → Bool} (h : b θ = s.begun θ) :
    inProgress { s with begun := b } θ = inProgress s θ := by
  unfold inProgress
  rw [show ({ s with begun := b } : Overlap.St H K).begun θ = s.begun θ from h]
  cases θ <;> rfl

variable [RegKernel K]

lemma owned_step {l : Execute.Label H (Kernel.World K)} {ex ex' : Execute.St H K}
    (ho : ex.lo.eventInfos.Owned) (h : Execute.step ex l = some ex') :
    ex'.lo.eventInfos.Owned := by
  refine step_inv_of_call (I := fun infos _ => infos.Owned) (fun c l' hc => ?_) ho h
  cases hc with
  | add d fd eh a ha => exact owned_add ho
  | erase d fd => exact owned_erase ho

/-- A step is one of the event loop, or changes nothing there. -/
lemma ex_of_step {l : Overlap.Label H (Kernel.World K)} (h : Overlap.step s l = some t) :
    t.ex = s.ex ∨ ∃ l', Execute.step s.ex l' = some t.ex := by
  cases l with
  | ex l =>
    obtain ⟨ex, hex, -, -, rfl⟩ := step_ex h
    exact .inr ⟨l, hex⟩
  | begins θ =>
    simp only [Overlap.step] at h
    split at h <;> cases h
    exact .inl rfl
  | invoke fd =>
    simp only [Overlap.step] at h
    split at h
    · obtain ⟨ex, hex, h⟩ := Option.bind_eq_some_iff.mp h
      split at h <;> cases h
      exact .inr ⟨.tau, hex⟩
    · cases h

/-- Only the dispatch of a handler makes the loop thread run a callback. -/
lemma running_of_step {l : Execute.Label H (Kernel.World K)} {ex ex' : Execute.St H K}
    (h : Execute.step ex l = some ex') (hrun : isRunning ex'.pc = true)
    (hnot : isRunning ex.pc = false) : l = .tau ∧ ∃ round n d p k e g,
      ex.pc = .bit round n d p k ∧ ex.lo.eventInfos.mem p = some e ∧ e.get d = some g := by
  have hsame : ex'.pc ≠ ex.pc := by
    intro hpc
    rw [hpc, hnot] at hrun
    cases hrun
  cases l with
  | execute =>
    obtain ⟨r, -, -, rfl⟩ := step_execute h
    cases hrun
  | fill rs =>
    obtain ⟨-, k, -, rfl⟩ := step_fill h
    cases hrun
  | fail eintr =>
    obtain ⟨-, rfl⟩ := step_fail h
    cases hrun
  | tau =>
    cases stepTau_cases h with
    | invoke round n d p k e g hpc hb hm he => exact ⟨rfl, round, n, d, p, k, e, g, hpc, hm, he⟩
    | skip | empty => simp [isRunning_next] at hrun
    | store _ _ _ pc hnew => rcases hnew with ⟨rfl, -⟩ | rfl <;> cases hrun
    | _ => cases hrun
  | call θ c => exact absurd (by cases step_call h <;> rfl) hsame
  | ret θ r =>
    cases stepRet_cases h with
    | again | drained => exact absurd rfl hsame
    | more | done => simp [isRunning_next] at hrun
  | throws θ =>
    cases stepThrow_cases h with
    | drain => exact absurd rfl hsame
    | caught => simp [isRunning_next] at hrun
  | world w =>
    obtain ⟨k, -, rfl⟩ := step_world h
    exact absurd rfl hsame

lemma step_of_ex {l : Execute.Label H (Kernel.World K)} {ex : Execute.St H K}
    (hb : (thread l).all s.begun = true) (h : Execute.step s.ex l = some ex)
    (hrun : isRunning ex.pc = true → isRunning s.ex.pc = true) : Overlap.step s (.ex l) =
      some ⟨ex, begunAfter s ex l, if isRunning ex.pc then s.current else none⟩ := by
  have hcond : (isRunning ex.pc && !isRunning s.ex.pc) = false := by simpa using hrun
  simp only [Overlap.step, hb, if_true, h, Option.bind_some, hcond, Bool.false_eq_true, if_false]

lemma step_of_dispatch {ex : Execute.St H K} {round n : ℕ} {d : Dir} {p : Addr} {k : ℕ} {fd : Fd}
    {e : EventsHandlers H} (hpc : s.ex.pc = .bit round n d p k)
    (h : Execute.step s.ex .tau = some ex) (hrun : isRunning ex.pc = true)
    (hf : s.ex.lo.eventInfos.find fd = some (p, e)) :
    Overlap.step s (.invoke fd) = some { s with ex, current := some (fd, d) } := by
  simp [Overlap.step, hpc, h, hrun, hf]

/-- A step of the event loop on a thread that has begun is one here. -/
lemma exists_step {l : Execute.Label H (Kernel.World K)} {ex : Execute.St H K}
    (ho : s.ex.lo.eventInfos.Owned) (hb : (thread l).all s.begun = true)
    (h : Execute.step s.ex l = some ex) : ∃ l' t, Overlap.step s l' = some t ∧ t.ex = ex := by
  by_cases hnew : isRunning ex.pc = true ∧ isRunning s.ex.pc = false
  · obtain ⟨rfl, round, n, d, p, k, e, g, hpc, hm, he⟩ := running_of_step h hnew.1 hnew.2
    obtain ⟨fd, hf⟩ := ho p e hm
    exact ⟨.invoke fd, _, step_of_dispatch hpc h hnew.1 hf, rfl⟩
  · exact ⟨.ex l, _, step_of_ex hb h (by simpa using hnew), rfl⟩

/-- **The same states.** The event loop reaches the same states as the machine whose invocations
begin in steps of their own. -/
theorem reaches_iff (ho : s.ex.lo.eventInfos.Owned) {ex : Execute.St H K} :
    (∃ t, Reaches Overlap.step s t ∧ t.ex = ex) ↔ Reaches Execute.step s.ex ex := by
  constructor
  · rintro ⟨t, ⟨ls, hls⟩, rfl⟩
    induction ls generalizing s with
    | nil =>
      obtain rfl : s = t := by simpa using hls
      exact .refl _
    | cons l ls ih =>
      obtain ⟨u, hu, hrest⟩ := run_cons_some.mp hls
      rcases ex_of_step hu with heq | ⟨l', hl'⟩
      · rw [← heq]
        exact ih (heq ▸ ho) hrest
      · exact (Reaches.of_step hl').trans (ih (owned_step ho hl') hrest)
  · rintro ⟨ls, hls⟩
    induction ls generalizing s with
    | nil => exact ⟨s, .refl s, by simpa using hls⟩
    | cons l ls ih =>
      obtain ⟨ex', hex', hrest⟩ := run_cons_some.mp hls
      obtain ⟨u, hu, rfl⟩ : ∃ u, Reaches Overlap.step s u ∧ u.ex = ex' := by
        by_cases hb : (thread l).all s.begun = true
        · obtain ⟨l', u, hu, rfl⟩ := exists_step ho hb hex'
          exact ⟨u, .of_step hu, rfl⟩
        -- the callback has to begin before it can do anything
        · obtain ⟨θ, hθ, hnot⟩ : ∃ θ, thread l = some θ ∧ s.begun θ = false := by
            cases hl : thread l <;> simp_all
          have hbegins : Overlap.step s (.begins θ) =
              some { s with begun := Function.update s.begun θ true } := by
            simp [Overlap.step, hnot]
          obtain ⟨l', u, hu, rfl⟩ := exists_step
            (s := { s with begun := Function.update s.begun θ true }) ho (by simp [hθ]) hex'
          exact ⟨u, (Reaches.of_step hbegins).trans (.of_step hu), rfl⟩
      obtain ⟨t, ht, rfl⟩ := ih (owned_step ho hex') hrest
      exact ⟨t, hu.trans ht, rfl⟩

/-! ### The condition is needed -/

/-- Two threads with the same handler: if one has called it, the other can. -/
lemma overlap_of_occupied {θ θ' : Thread} {key : Fd × Dir} (hne : θ ≠ θ')
    (h : key ∈ inProgress s θ) (h' : key ∈ occupied s θ') :
    ∃ t, Reaches Overlap.step s t ∧ ¬ NoOverlap t := by
  cases hb : s.begun θ' with
  | true =>
    rw [← inProgress_of_begun hb] at h'
    exact ⟨s, .refl s, fun hno => hno.2 θ θ' hne h h'⟩
  | false =>
    set t : Overlap.St H K := { s with begun := Function.update s.begun θ' true } with ht
    have hbegins : Overlap.step s (.begins θ') = some t := by
      simp [Overlap.step, hb, ht]
    have hin : key ∈ inProgress t θ := by
      rwa [inProgress_congr (Function.update_of_ne hne _ _)]
    have hin' : key ∈ inProgress t θ' := by
      rw [inProgress_of_begun (Function.update_self ..)]
      cases θ' <;> exact h'
    exact ⟨t, .of_step hbegins, fun hno => hno.2 θ θ' hne hin hin'⟩

lemma step_add {θ : Thread} {d : Dir} {fd : Fd} {g : H} {a : Addr} (hs : Sound s)
    (h : Overlap.step s (.ex (.call θ (.add d fd (some g) a))) = some t)
    (hadded : t.ex.drains θ ≠ s.ex.drains θ) :
    ∃ lo log, t = push s θ ⟨d, fd, g⟩ lo log (Function.update s.begun θ false) := by
  obtain ⟨ex, hex, -, -, rfl⟩ := step_ex h
  cases step_call hex with
  | refused => exact absurd rfl hadded
  | added _ _ _ _ ha hr =>
    refine ⟨(addHandler d s.ex.lo fd (some g) a ha).1, .add d fd g :: s.ex.log, ?_⟩
    unfold push
    congr 1
    · have hlonger : ¬((⟨d, fd, g⟩ :: s.ex.drains θ).length ≤ (s.ex.drains θ).length) := by simp
      simp only [begunAfter, Function.update_self]
      rw [decide_eq_false hlonger]
    · exact hs.current_eq

/-- **A second registration.** A handler that is registered while its direction is occupied can
be called while the other call goes on. -/
theorem overlap_of_added {θ i : Thread} {d : Dir} {fd : Fd} {g : H} {a : Addr} (hs : Sound s)
    (h : Overlap.step s (.ex (.call θ (.add d fd (some g) a))) = some t)
    (hadded : t.ex.drains θ ≠ s.ex.drains θ) (hocc : (fd, d) ∈ occupied s i) :
    ∃ u, Reaches Overlap.step t u ∧ ¬ NoOverlap u := by
  obtain ⟨lo, log, rfl⟩ := step_add hs h hadded
  set t := push s θ ⟨d, fd, g⟩ lo log (Function.update s.begun θ false) with ht
  set u : Overlap.St H K := { t with begun := Function.update t.begun θ true } with hu
  have hbegins : Overlap.step t (.begins θ) = some u := by
    simp [Overlap.step, ht, hu, push]
  have hocc_eq : ∀ j, occupied u j = occupied t j := fun j => by cases j <;> rfl
  have hself : inProgress u θ = (fd, d) :: occupied s θ := by
    rw [inProgress_of_begun (Function.update_self ..), hocc_eq]
    exact occupied_push_self
  by_cases hi : i = θ
  · subst hi
    refine ⟨u, .of_step hbegins, fun hno => ?_⟩
    have hnodup := hno.1 i
    rw [hself] at hnodup
    exact (List.nodup_cons.mp hnodup).1 hocc
  · have hother : (fd, d) ∈ occupied u i := by
      rwa [hocc_eq, occupied_push_of_ne hi]
    obtain ⟨v, hv, hno⟩ :=
      overlap_of_occupied (Ne.symm hi) (by rw [hself]; exact List.mem_cons_self) hother
    exact ⟨v, (Reaches.of_step hbegins).trans hv, hno⟩

/-! ### The way through the batch -/

/-- The loop thread has served slots, and nothing else has happened; the events of `P` are as
they were. -/
structure Keeps (P : ℕ → Dir → Prop) (s t : Overlap.St H K) : Prop where
  infos : t.ex.lo.eventInfos = s.ex.lo.eventInfos
  count : t.ex.lo.eventCount = s.ex.lo.eventCount
  ptr : ∀ k, (t.ex.lo.events k).ptr = (s.ex.lo.events k).ptr
  bits : ∀ k d, P k d → has (t.ex.lo.events k).events d.bit = has (s.ex.lo.events k).events d.bit
  drains : t.ex.drains = s.ex.drains
  begun : t.begun = s.begun

variable {P Q : ℕ → Dir → Prop}

omit [RegKernel K] in
lemma Keeps.trans (h : Keeps P s t) (h' : Keeps P t u) : Keeps P s u where
  infos := h'.infos.trans h.infos
  count := h'.count.trans h.count
  ptr k := (h'.ptr k).trans (h.ptr k)
  bits k d hk := (h'.bits k d hk).trans (h.bits k d hk)
  drains := h'.drains.trans h.drains
  begun := h'.begun.trans h.begun

omit [RegKernel K] in
lemma Keeps.mono (h : Keeps P s t) (hP : ∀ k d, Q k d → P k d) : Keeps Q s t :=
  { h with bits := fun k d hk => h.bits k d (hP k d hk) }

omit [RegKernel K] in
/-- The loop thread only moves. -/
lemma keeps_move (pc : Pc) (log : List (Obs H)) (c : Option (Fd × Dir)) :
    Keeps P s ⟨{ s.ex with pc, log }, s.begun, c⟩ :=
  ⟨rfl, rfl, fun _ => rfl, fun _ _ _ => rfl, rfl, rfl⟩

/-- The loop thread can dispatch: nothing runs on it, and the batch leads to no freed entry. -/
structure Dispatches (s : Overlap.St H K) : Prop where
  drains : s.ex.drains .loop = []
  begun : s.begun .loop = true
  owned : s.ex.lo.eventInfos.Owned
  alive : ∀ (n : ℕ) p, (n : ℤ) < s.ex.lo.eventCount → (s.ex.lo.events n).ptr = some p →
    (s.ex.lo.eventInfos.mem p).isSome = true

omit [RegKernel K] in
lemma Keeps.dispatches (h : Keeps P s t) (hs : Dispatches s) : Dispatches t where
  drains := (congrFun h.drains _).trans hs.drains
  begun := (congrFun h.begun _).trans hs.begun
  owned := h.infos ▸ hs.owned
  alive n p hn hp := by
    rw [h.infos]
    exact hs.alive n p (h.count ▸ hn) ((h.ptr n).symm.trans hp)

/-- A step of the loop thread in which no handler is called. -/
lemma step_tau {ex : Execute.St H K} (h : stepTau s.ex = some ex) (hrun : isRunning ex.pc = false) :
    Overlap.step s (.ex .tau) = some ⟨ex, s.begun, none⟩ := by
  have hex : Execute.step s.ex (.tau : Execute.Label H (Kernel.World K)) = some ex := h
  rw [step_of_ex rfl hex (fun hr => by rw [hrun] at hr; cases hr), if_neg (by simp [hrun])]
  rfl

/-- A handler is called that is registered for the pending event. -/
lemma step_call_handler {round n : ℕ} {d : Dir} {p : Addr} {k : ℕ} {fd : Fd}
    {e : EventsHandlers H} {g : H} (hpc : s.ex.pc = .bit round n d p k)
    (hb : has (s.ex.lo.events n).events d.bit = true)
    (hf : s.ex.lo.eventInfos.find fd = some (p, e)) (he : e.get d = some g) :
    Overlap.step s (.invoke fd) = some ⟨{ s.ex with
      pc := .running round n d p k
      log := .invoke round n d (s.ex.src n) g :: s.ex.log }, s.begun, some (fd, d)⟩ := by
  have hex : Execute.step s.ex (.tau : Execute.Label H (Kernel.World K)) = some { s.ex with
      pc := .running round n d p k
      log := .invoke round n d (s.ex.src n) g :: s.ex.log } := by
    simp [Execute.step, stepTau, hpc, hb, (NodeMap.find_eq_some.mp hf).2, he]
  exact step_of_dispatch hpc hex rfl hf

omit [RegKernel K] in
lemma has_turnOffSlot {lo : EventLoop H K} {m n : ℕ} {d e : Dir} (h : ¬(m = n ∧ e = d)) :
    has ((turnOffSlot lo n d).events m).events e.bit = has (lo.events m).events e.bit := by
  by_cases hm : m = n
  · subst hm
    have he : e ≠ d := fun he => h ⟨rfl, he⟩
    simp only [turnOffSlot, Function.update_self]
    exact has_clear_of_disjoint (Dir.bit_disjoint (Ne.symm he)) _
  · simp [turnOffSlot, Function.update_of_ne hm]

/-- The callback on the loop thread returns 0. -/
lemma step_return {round n : ℕ} {d : Dir} {p : Addr} {k : ℕ} (hnil : s.ex.drains .loop = [])
    (hb : s.begun .loop = true) (hpc : s.ex.pc = .running round n d p k) :
    ∃ t, Reaches Overlap.step s t ∧ t.ex.pc = next round n d p k ∧
      Keeps (fun m e => ¬(m = n ∧ e = d)) s t := by
  set ex : Execute.St H K := { s.ex with
    lo := turnOffSlot s.ex.lo n d
    pc := next round n d p k
    log := .result d (s.ex.src n) 0 :: s.ex.log } with hex
  have hret : Execute.step s.ex (.ret .loop 0 : Execute.Label H (Kernel.World K)) = some ex := by
    simp [Execute.step, stepRet, hnil, hpc, hex]
  have hbegun : begunAfter s ex (.ret .loop 0 : Execute.Label H (Kernel.World K)) = s.begun := by
    simp [begunAfter, hb]
  refine ⟨_, .of_step (step_of_ex (by simpa [thread] using hb) hret fun _ => ?_), rfl, ?_⟩
  · rw [hpc]
    rfl
  · exact ⟨rfl, rfl, fun m => Dispatch.turnOffSlot_ptr s.ex.lo n m d,
      fun m e h => has_turnOffSlot h, rfl, hbegun⟩

/-- One direction of one slot: its callback returns 0, or there is none to call. -/
lemma pass_bit {round n : ℕ} {d : Dir} {p : Addr} {k : ℕ} (hs : Dispatches s)
    (hpc : s.ex.pc = .bit round n d p k) (hn : (n : ℤ) < s.ex.lo.eventCount)
    (hp : (s.ex.lo.events n).ptr = some p) :
    ∃ t, Reaches Overlap.step s t ∧ t.ex.pc = next round n d p k ∧
      Keeps (fun m e => ¬(m = n ∧ e = d)) s t := by
  have hskip (h : stepTau s.ex = some { s.ex with pc := next round n d p k }) :
      ∃ t, Reaches Overlap.step s t ∧ t.ex.pc = next round n d p k ∧
        Keeps (fun m e => ¬(m = n ∧ e = d)) s t :=
    ⟨_, .of_step (step_tau h (isRunning_next ..)), rfl, keeps_move ..⟩
  cases hb : has (s.ex.lo.events n).events d.bit with
  | false => exact hskip (by simp [stepTau, hpc, hb])
  | true =>
    obtain ⟨e, hm⟩ := Option.isSome_iff_exists.mp (hs.alive n p hn hp)
    cases he : e.get d with
    | none => exact hskip (by simp [stepTau, hpc, hb, hm, he])
    | some g =>
      obtain ⟨fd, hf⟩ := hs.owned p e hm
      set u : Overlap.St H K := ⟨{ s.ex with
        pc := .running round n d p k
        log := .invoke round n d (s.ex.src n) g :: s.ex.log }, s.begun, some (fd, d)⟩ with hu
      have hcalled : Keeps (fun m e => ¬(m = n ∧ e = d)) s u := keeps_move ..
      obtain ⟨t, ht, hpct, hkeeps⟩ := step_return (s := u) hs.drains hs.begun rfl
      exact ⟨t, (Reaches.of_step (step_call_handler hpc hb hf he)).trans ht, hpct,
        hcalled.trans hkeeps⟩

lemma pass_head {round n k : ℕ} {p : Addr} (hpc : s.ex.pc = .slot round n k)
    (hn : (n : ℤ) < s.ex.lo.eventCount) (hp : (s.ex.lo.events n).ptr = some p) :
    ∃ t, Reaches Overlap.step s t ∧ t.ex.pc = .bit round n .inp p k ∧
      Keeps (fun _ _ => True) s t := by
  have htau : stepTau s.ex = some { s.ex with pc := .bit round n .inp p k } := by
    simp [stepTau, hpc, hn, hp]
  exact ⟨_, .of_step (step_tau htau rfl), rfl, keeps_move ..⟩

/-- From the head of the loop to one direction of the slot. -/
lemma pass_to {round n k : ℕ} {p : Addr} (d : Dir) (hs : Dispatches s)
    (hpc : s.ex.pc = .slot round n k) (hn : (n : ℤ) < s.ex.lo.eventCount)
    (hp : (s.ex.lo.events n).ptr = some p) :
    ∃ t, Reaches Overlap.step s t ∧ t.ex.pc = .bit round n d p k ∧
      Keeps (fun m e => n < m ∨ (m = n ∧ e = d)) s t := by
  obtain ⟨t, ht, hpct, hkeeps⟩ := pass_head hpc hn hp
  cases d with
  | inp => exact ⟨t, ht, hpct, hkeeps.mono fun _ _ _ => trivial⟩
  | out =>
    obtain ⟨u, hu, hpcu, hkeeps'⟩ := pass_bit (hkeeps.dispatches hs) hpct (hkeeps.count ▸ hn)
      ((hkeeps.ptr n).trans hp)
    refine ⟨u, ht.trans hu, hpcu, (hkeeps.mono fun _ _ _ => trivial).trans (hkeeps'.mono ?_)⟩
    rintro m e hme ⟨rfl, rfl⟩
    rcases hme with hlt | ⟨-, he⟩
    · exact Nat.lt_irrefl _ hlt
    · cases he

lemma pass_slot {round n k : ℕ} {p : Addr} (hs : Dispatches s)
    (hpc : s.ex.pc = .slot round n k) (hn : (n : ℤ) < s.ex.lo.eventCount)
    (hp : (s.ex.lo.events n).ptr = some p) :
    ∃ t, Reaches Overlap.step s t ∧ t.ex.pc = .slot round (n + 1) k ∧
      Keeps (fun m _ => n < m) s t := by
  obtain ⟨t, ht, hpct, hkeeps⟩ := pass_to .out hs hpc hn hp
  obtain ⟨u, hu, hpcu, hkeeps'⟩ := pass_bit (hkeeps.dispatches hs) hpct (hkeeps.count ▸ hn)
    ((hkeeps.ptr n).trans hp)
  refine ⟨u, ht.trans hu, hpcu, (hkeeps.mono fun m e hm => .inl hm).trans (hkeeps'.mono ?_)⟩
  rintro m e hm ⟨rfl, -⟩
  exact Nat.lt_irrefl _ hm

/-- The loop thread comes to every slot before which no stop event is. -/
lemma pass_slots {round k : ℕ} (hs : Dispatches s) (hpc : s.ex.pc = .slot round 0 k) (n : ℕ)
    (hn : (n : ℤ) ≤ s.ex.lo.eventCount) (hp : ∀ m < n, (s.ex.lo.events m).ptr ≠ none) :
    ∃ t, Reaches Overlap.step s t ∧ t.ex.pc = .slot round n k ∧ Keeps (fun m _ => n ≤ m) s t := by
  induction n with
  | zero => exact ⟨s, .refl s, hpc, keeps_move s.ex.pc s.ex.log s.current⟩
  | succ n ih =>
    obtain ⟨t, ht, hpct, hkeeps⟩ := ih (by omega) fun m hm => hp m (by omega)
    obtain ⟨p, hpn⟩ := Option.ne_none_iff_exists'.mp (hp n (by omega))
    obtain ⟨u, hu, hpcu, hkeeps'⟩ := pass_slot (hkeeps.dispatches hs) hpct
      (by rw [hkeeps.count]; omega) ((hkeeps.ptr n).trans hpn)
    exact ⟨u, ht.trans hu, hpcu, (hkeeps.mono fun m _ (hm : n + 1 ≤ m) => by omega).trans
      (hkeeps'.mono fun m _ hm => hm)⟩

/-- **A dispatch during the drain.** When the loop takes the mutex while something that awaits
the dispatch is being drained, the scheduler can make both call the handler at the same time. -/
theorem overlap_of_lock {fd : Fd} {d : Dir} {θ : Thread} (hs : Sound s) (hpc : s.ex.pc = .lock)
    (ho : s.ex.lo.eventInfos.Owned)
    (halive : ∀ (n : ℕ) p, (n : ℤ) < s.ex.lo.eventCount → (s.ex.lo.events n).ptr = some p →
      (s.ex.lo.eventInfos.mem p).isSome = true)
    (hawaits : Awaits s.ex.lo fd d) (hdrain : (fd, d) ∈ draining s θ) :
    ∃ u, Reaches Overlap.step s u ∧ ¬ NoOverlap u := by
  have hnil : s.ex.drains .loop = [] := hs.no_drain (by simp [mayCall, hpc])
  have hdisp : Dispatches s := ⟨hnil, hs.begun _ hnil, ho, halive⟩
  obtain ⟨n, p, e, hn, hbefore, hp, hb, hf, he⟩ := hawaits
  obtain ⟨g, hg⟩ := Option.ne_none_iff_exists'.mp he
  -- the mutex is taken, the slots before the event are served, and the handler is called
  have htau : stepTau s.ex = some { s.ex with pc := .slot 0 0 0 } := by simp [stepTau, hpc]
  set t₀ : Overlap.St H K := ⟨{ s.ex with pc := .slot 0 0 0 }, s.begun, none⟩ with ht₀
  have hkeeps₀ : Keeps (fun _ _ => True) s t₀ := keeps_move ..
  obtain ⟨t₁, h₁, hpc₁, hkeeps₁⟩ := pass_slots (hkeeps₀.dispatches hdisp) rfl n
    (Int.le_of_lt hn) hbefore
  have hkeeps₁' := (hkeeps₀.mono fun _ _ _ => trivial).trans hkeeps₁
  obtain ⟨t₂, h₂, hpc₂, hkeeps₂⟩ := pass_to d (hkeeps₁'.dispatches hdisp) hpc₁
    (hkeeps₁'.count ▸ hn) ((hkeeps₁'.ptr n).trans hp)
  have hkeeps : Keeps (fun m e => m = n ∧ e = d) s t₂ :=
    (hkeeps₁'.mono fun m _ hm => Nat.le_of_eq hm.1.symm).trans (hkeeps₂.mono fun _ _ h => .inr h)
  have hcall := step_call_handler hpc₂ ((hkeeps.bits n d ⟨rfl, rfl⟩).trans hb)
    (hkeeps.infos ▸ hf) hg
  have hne : .loop ≠ θ := by
    rintro rfl
    simp [draining, hnil] at hdrain
  set u : Overlap.St H K := ⟨{ t₂.ex with
    pc := .running 0 n d p 0
    log := .invoke 0 n d (t₂.ex.src n) g :: t₂.ex.log }, t₂.begun, some (fd, d)⟩ with hu
  have hin : (fd, d) ∈ inProgress u .loop := List.mem_append_right _ List.mem_cons_self
  have hocc : (fd, d) ∈ occupied u θ := by
    have hdrains : u.ex.drains = s.ex.drains := hkeeps.drains
    refine List.mem_append_left _ ?_
    rwa [draining, hdrains]
  obtain ⟨v, hv, hno⟩ := overlap_of_occupied hne hin hocc
  refine ⟨v, ?_, hno⟩
  exact (Reaches.of_step (step_tau htau rfl)).trans (h₁.trans (h₂.trans
    ((Reaches.of_step hcall).trans hv)))

/-- **No weaker condition on the steps would do.** If a step of a run violates the condition, two
invocations at once can be reached from it, provided that the registration was accepted, or that
the batch does not lead to freed entries. -/
theorem overlap_of_not_separate {ls : List (Overlap.Label H (Kernel.World K))}
    {l : Overlap.Label H (Kernel.World K)} (hs : Idle s) (ho : s.ex.lo.eventInfos.Owned)
    (hrun : run Overlap.step s ls = some t) (h : Overlap.step t l = some u)
    (hadded : ∀ θ c, l = .ex (.call θ c) → u.ex.drains θ ≠ t.ex.drains θ)
    (halive : ∀ (n : ℕ) p, (n : ℤ) < t.ex.lo.eventCount → (t.ex.lo.events n).ptr = some p →
      (t.ex.lo.eventInfos.mem p).isSome = true)
    (hsep : ¬ Separate t l) : ∃ v, Reaches Overlap.step t v ∧ ¬ NoOverlap v := by
  have hsound : Sound t := run_inv (fun _ _ _ hi hl => sound_step hi hl) (sound_idle hs) hrun
  have howned : t.ex.lo.eventInfos.Owned := by
    obtain ⟨ls', hls'⟩ := (reaches_iff ho).mp ⟨t, ⟨ls, hrun⟩, rfl⟩
    exact run_inv (I := fun ex => ex.lo.eventInfos.Owned) (fun _ _ _ hi hl => owned_step hi hl)
      ho hls'
  unfold Separate at hsep
  split at hsep
  · next θ d fd g a =>
    obtain ⟨i, hocc⟩ := not_forall_not.mp hsep
    obtain ⟨v, hv, hno⟩ := overlap_of_added hsound h (hadded _ _ rfl) hocc
    exact ⟨v, (Reaches.of_step h).trans hv, hno⟩
  · obtain ⟨hpc, hsep⟩ := Classical.not_imp.mp hsep
    simp only [not_forall, not_not] at hsep
    obtain ⟨fd, d, hawaits, θ, hdrain⟩ := hsep
    exact overlap_of_lock hsound hpc howned halive hawaits hdrain
  · exact absurd trivial hsep

/-- A handler that registers itself again while it is dispatched is called within its own call. -/
example : ∃ t, run Overlap.step start (drainedFirst ++ [.ex (.call .loop
    (.add .inp 3 (some 11) 2)), .begins .loop]) = some t ∧
    inProgress t .loop = [(3, .inp), (3, .inp)] := ⟨_, rfl, rfl⟩

end Hbm.Overtaken
