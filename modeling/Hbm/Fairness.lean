import Hbm.Batch
import Hbm.Rounds
import Hbm.Run

/-!
The inner loop serves what is pending once in every round.

The scan has passed a turn in a round when the loop is beyond it. The invariant compares the
callbacks called so far with the turns passed so far: nothing is called twice, and an event that
is still pending was served at every passed turn.
-/

namespace Hbm.Fairness

open Hbm.Mask Hbm.Epoll Hbm.Handlers Hbm.Run Hbm.Execute Hbm.Dispatch Hbm.Turns Hbm.Rounds
open Hbm.Batch

variable {H K : Type*}

/-- The loop has been at the turn `x` of round `i`. -/
@[simp] def Passed (i : ℕ) (x : ℕ × Dir) : Pc → Prop
  | .slot round n _ => i < round ∨ i = round ∧ x.1 < n
  | .bit round n d _ _ => i < round ∨ i = round ∧ turn x < turn (n, d)
  | .running round n d _ _ => i < round ∨ i = round ∧ turn x ≤ turn (n, d)
  | _ => False

/-- Within a batch the loop is at a slot, or waits for the next batch. -/
@[simp] def Inside (count : ℕ) : Pc → Prop
  | .slot _ n _ => n ≤ count
  | .bit .. => True
  | .running .. => True
  | .wait => True
  | _ => False

structure Fair (s : St H K) : Prop where
  inside : Inside s.lo.eventCount.toNat s.pc
  full : ∀ n < s.lo.eventCount.toNat, (s.lo.events n).ptr ≠ none
  scan : Scan turn (services s.log)
  below : s.pc.locked = true → ∀ k ∈ services s.log, Passed k.1 k.2 s.pc
  complete : ∀ n d i, n < s.lo.eventCount.toNat → Pending s n d → Passed i (n, d) s.pc →
    (i, (n, d)) ∈ services s.log
  ended : s.pc = .wait → ∀ n d, n < s.lo.eventCount.toNat → ¬ Pending s n d

variable {s t : St H K} {round n : ℕ} {d : Dir} {p : Addr} {k : ℕ}

/-- After a test or a callback its turn has been passed, and no other one. -/
lemma passed_next {i : ℕ} {x : ℕ × Dir} :
    Passed i x (next round n d p k) ↔ i < round ∨ i = round ∧ turn x ≤ turn (n, d) := by
  cases d
  · simp only [next, Passed, turn_lt_out]
  · simp only [next, Passed, turn_le_out]

lemma inside_next {c : ℕ} (hn : n < c) : Inside c (next round n d p k) := by
  cases d
  · trivial
  · exact hn

lemma next_ne_wait : next round n d p k ≠ .wait := by cases d <;> simp [next]

/-- A step that calls no callback: every turn it passes is one without a pending event. -/
lemma Fair.quiet (hs : Fair s) (hserv : services t.log = services s.log)
    (hc : t.lo.eventCount = s.lo.eventCount)
    (hptr : ∀ n, (t.lo.events n).ptr = (s.lo.events n).ptr)
    (hpend : ∀ n d, Pending t n d → Pending s n d)
    (hin : Inside t.lo.eventCount.toNat t.pc)
    (hbelow : t.pc.locked = true → s.pc.locked = true ∧ ∀ i x, Passed i x s.pc → Passed i x t.pc)
    (hpass : ∀ n d i, n < s.lo.eventCount.toNat → Pending t n d → Passed i (n, d) t.pc →
      Passed i (n, d) s.pc)
    (hend : t.pc = .wait → ∀ n d, n < s.lo.eventCount.toNat → ¬ Pending t n d) : Fair t where
  inside := hin
  full := by
    intro n hn
    rw [hptr]
    exact hs.full n (by rwa [hc] at hn)
  scan := by rw [hserv]; exact hs.scan
  below := by
    intro hl k hk
    obtain ⟨hl', hp⟩ := hbelow hl
    rw [hserv] at hk
    exact hp _ _ (hs.below hl' k hk)
  complete := by
    intro n d i hn hpd hp
    rw [hc] at hn
    rw [hserv]
    exact hs.complete n d i hn (hpend n d hpd) (hpass n d i hn hpd hp)
  ended := by
    intro hw n d hn
    rw [hc] at hn
    exact hend hw n d hn

/-- The test of a direction that is not pending. -/
lemma Fair.skip (hs : Fair s) (hsafe : Safe s) (hpc : s.pc = .bit round n d p k)
    (hb : ¬ Pending s n d) : Fair { s with pc := next round n d p k } := by
  have hn : n < s.lo.eventCount.toNat := by
    have := (hsafe.here round n d p k (Or.inl hpc)).1
    rwa [armed_def, hpc] at this
  have hne : ∀ m e, Pending s m e → turn (m, e) ≠ turn (n, d) := by
    intro m e hpd heq
    obtain ⟨rfl, rfl⟩ := Prod.mk.inj (turn_inj heq)
    exact hb hpd
  refine hs.quiet rfl rfl (fun _ => rfl) (fun _ _ h => h) (inside_next hn) ?_ ?_ ?_
  · intro _
    rw [hpc]
    refine ⟨rfl, fun i x h => passed_next.mpr ?_⟩
    simp only [Passed] at h
    omega
  · intro m e i _ hpd h
    rw [passed_next] at h
    have := hne m e hpd
    simp only [hpc, Passed]
    omega
  · exact fun h => absurd h next_ne_wait

lemma fair_invoke (hs : Fair s) (hpc : s.pc = .bit round n d p k) (hb : Pending s n d)
    (hn : n < s.lo.eventCount.toNat) {fd : Fd} {h : H} :
    Fair { s with pc := .running round n d p k, log := .invoke round n d fd h :: s.log } where
  inside := trivial
  full := hs.full
  scan := by
    rw [services_invoke]
    refine ⟨List.pairwise_cons.mpr ⟨fun b hbm => ?_, hs.scan.sorted⟩, ?_⟩
    · have := hs.below (by rw [hpc]; rfl) b hbm
      rw [hpc] at this
      exact this
    · intro r x hx i hi
      rcases List.mem_cons.mp hx with heq | hx
      · -- a pending event was served in every earlier round
        obtain ⟨rfl, rfl⟩ := Prod.mk.inj heq
        refine List.mem_cons_of_mem _ (hs.complete n d i hn hb ?_)
        rw [hpc]
        exact Or.inl hi
      · exact List.mem_cons_of_mem _ (hs.scan.gapless r x hx i hi)
  below := by
    intro _ b hbm
    rw [services_invoke] at hbm
    rcases List.mem_cons.mp hbm with rfl | hbm
    · exact Or.inr ⟨rfl, le_rfl⟩
    · have := hs.below (by rw [hpc]; rfl) b hbm
      simp only [hpc, Passed] at this ⊢
      omega
  complete := by
    intro m e i hm hpd hp
    rw [services_invoke]
    by_cases heq : i = round ∧ turn (m, e) = turn (n, d)
    · obtain ⟨rfl, heq⟩ := heq
      rw [turn_inj heq]
      exact List.mem_cons_self
    · refine List.mem_cons_of_mem _ (hs.complete m e i hm hpd ?_)
      simp only [hpc, Passed] at hp ⊢
      omega
  ended := by
    intro h
    cases h

lemma fair_tau (hs : Fair s) (hsafe : Safe s) (hr : Ready s) (hi : IdleOff s) (h : Tau s t) :
    Fair t := by
  have hin := hs.inside
  cases h with
  | store ret eintr hpc pc hnew => simp [hpc] at hin
  | lock hpc => simp [hpc] at hin
  | stop round n k hpc hn hp => exact absurd hp (hs.full n (by omega))
  | enter round n k p hpc hn hp =>
    refine hs.quiet rfl rfl (fun _ => rfl) (fun _ _ h => h) trivial ?_ ?_ ?_
    · intro _
      simp only [hpc, Passed, turn_lt_inp]
      exact ⟨rfl, fun _ _ h => h⟩
    · intro m e i _ _ h
      simpa only [hpc, Passed, turn_lt_inp] using h
    · intro h; cases h
  | unlock round n hpc hn =>
    refine hs.quiet rfl rfl (fun _ => rfl) (fun _ _ h => h) trivial ?_ ?_ ?_
    · intro h; cases h
    · intro m e i _ _ h; cases h
    · intro _ m e hm
      refine hi m e hm (hs.full m hm) ?_
      have : m < n := by omega
      simpa only [hpc, Idle, true_and] using this
  | again round n k hpc hn hne =>
    refine hs.quiet rfl rfl (fun _ => rfl) (fun _ _ h => h) (Nat.zero_le _) ?_ ?_ ?_
    · intro _
      simp only [hpc, Passed]
      exact ⟨rfl, fun i x h => by omega⟩
    · intro m e i hm _ h
      simp only [hpc, Passed] at h ⊢
      omega
    · intro h; cases h
  | skip round n d p k hpc hb => exact hs.skip hsafe hpc (by rw [Pending, hb]; decide)
  | dangling round n d p k hpc hb hm =>
    exact absurd rfl (safe_tau hsafe (.dangling round n d p k hpc hb hm)).alive
  | empty round n d p k e hpc hb hm he =>
    obtain ⟨hn, hp⟩ := hsafe.here round n d p k (Or.inl hpc)
    obtain ⟨e', hf⟩ := hsafe.live n d p hn hp hb
    have hset := hr n d p hn hp hb
    rw [(NodeMap.find_eq_some.mp hf).2] at hm
    cases hm
    rw [handler, hf, Option.bind_some, he] at hset
    cases hset
  | invoke round n d p k e g hpc hb hm he =>
    have hn := (hsafe.here round n d p k (Or.inl hpc)).1
    rw [armed_def, hpc] at hn
    exact fair_invoke hs hpc hb hn

/-- A callback that has returned. -/
lemma Fair.after (hs : Fair s) (hsafe : Safe s) (hpc : s.pc = .running round n d p k) {k' : ℕ}
    (ht : t.pc = next round n d p k') (hserv : services t.log = services s.log)
    (hc : t.lo.eventCount = s.lo.eventCount)
    (hptr : ∀ n, (t.lo.events n).ptr = (s.lo.events n).ptr)
    (hpend : ∀ n d, Pending t n d → Pending s n d) : Fair t := by
  have hn : n < s.lo.eventCount.toNat := by
    have := (hsafe.here round n d p k (Or.inr hpc)).1
    rwa [armed_def, hpc] at this
  refine hs.quiet hserv hc hptr hpend ?_ ?_ ?_ ?_
  · rw [ht, hc]
    exact inside_next hn
  · intro _
    rw [ht, hpc]
    exact ⟨rfl, fun i x h => passed_next.mpr h⟩
  · intro m e i _ _ h
    rw [ht, passed_next] at h
    rw [hpc]
    exact h
  · exact fun h => absurd (ht ▸ h) next_ne_wait

lemma fair_ret (hs : Fair s) (hsafe : Safe s) {th : Thread} {r : ℤ} (h : Ret s th r t) :
    Fair t := by
  cases h with
  | again f rest hd hr =>
    exact hs.quiet rfl rfl (fun _ => rfl) (fun _ _ h => h) hs.inside
      (fun hl => ⟨hl, fun _ _ h => h⟩) (fun _ _ _ _ _ h => h) hs.ended
  | drained f rest hd hr =>
    exact hs.quiet rfl rfl (fun _ => rfl) (fun _ _ h => h) hs.inside
      (fun hl => ⟨hl, fun _ _ h => h⟩) (fun _ _ _ _ _ h => h) hs.ended
  | more round n d p k hd ht hpc hr =>
    exact hs.after hsafe hpc rfl rfl rfl (fun _ => rfl) (fun _ _ h => h)
  | done round n d p k hd ht hpc hr =>
    exact hs.after hsafe hpc rfl rfl rfl (fun m => turnOffSlot_ptr s.lo n m d)
      (fun _ _ h => has_of_turnOffSlot h)

lemma fair_call [Kernel K] (hs : Fair s) {th : Thread} {c : Call H} (h : CallStep s th c t) :
    Fair t := by
  have key : ∀ {u : St H K}, services u.log = services s.log → u.pc = s.pc →
      u.lo.eventCount = s.lo.eventCount → (∀ n, (u.lo.events n).ptr = (s.lo.events n).ptr) →
      (∀ n d, Pending u n d → Pending s n d) → Fair u := by
    intro u hserv hpc hc hptr hpend
    refine hs.quiet hserv hc hptr hpend (by rw [hpc, hc]; exact hs.inside) ?_ ?_ ?_ <;> rw [hpc]
    · exact fun hl => ⟨hl, fun _ _ h => h⟩
    · exact fun _ _ _ _ _ h => h
    · exact fun hw n d hn hpd => hs.ended hw n d hn (hpend n d hpd)
  cases h with
  | added d fd g a ha hr =>
    exact key rfl rfl (by simp) (fun n => by simp) (fun n d' h => by simpa [Pending] using h)
  | refused d fd eh a ha hr =>
    exact key (services_stored d fd eh s.log) rfl (by simp) (fun n => by simp)
      (fun n d' h => by simpa [Pending] using h)
  | erased d fd g hh =>
    exact key rfl rfl (by simp) (fun n => (turnOff_le d d s.lo fd n).1)
      (fun n d' h => (turnOff_le d d' s.lo fd n).2 h)
  | absent d fd hh => exact hs

/-! ### Runs of a dispatch -/

structure Dispatching (s : St H K) : Prop where
  safe : Safe s
  ready : Ready s
  idle : IdleOff s
  kept : Kept s
  fair : Fair s

/-- Within a batch no slot is above the count an erasure looks at. -/
lemma Fair.armed_le (hs : Fair s) : armed s ≤ s.lo.eventCount.toNat := by
  have hin := hs.inside
  rcases hpc : s.pc <;> simp_all

/-- The entry behind a slot of a batch. -/
lemma starts_entry (hs : Starts s) (hn : n < s.lo.eventCount.toNat)
    (hp : (s.lo.events n).ptr = some p) : ∃ e, s.lo.eventInfos.find (s.src n) = some (p, e) ∧
      ∀ d, Pending s n d → (e.get d).isSome = true := by
  obtain ⟨p', e, hp', hf, hset⟩ := hs.entry n hn
  rw [hp] at hp'
  cases hp'
  exact ⟨e, hf, hset⟩

lemma starts_safe (hs : Starts s) : Safe s := by
  have hpc := hs.pc
  refine ⟨by simp [hpc], fun m n p hm hn h1 h2 => ?_, fun n d p hn hp hpend => ?_, by simp [hpc]⟩
  · simp only [armed_def, hpc, armedAt] at hm hn
    obtain ⟨e1, hf1, -⟩ := starts_entry hs hm h1
    obtain ⟨e2, hf2, -⟩ := starts_entry hs hn h2
    exact hs.distinct m n hm hn (NodeMap.find_addr_inj hf1 hf2)
  · simp only [armed_def, hpc, armedAt] at hn
    obtain ⟨e, hf, -⟩ := starts_entry hs hn hp
    exact ⟨e, hf⟩

lemma starts_ready (hs : Starts s) : Ready s := by
  intro n d p hn hp hpend
  simp only [armed_def, hs.pc, armedAt] at hn
  obtain ⟨e, hf, hset⟩ := starts_entry hs hn hp
  rw [handler, hf]
  exact hset d hpend

lemma starts_fair (hs : Starts s) : Fair s := by
  have hpc := hs.pc
  have hlog := hs.log
  refine ⟨by simp [hpc], fun n hn h0 => ?_, ⟨by simp [hlog, services], by simp [hlog, services]⟩,
    by simp [hlog, services], by simp [hpc], by simp [hpc]⟩
  obtain ⟨p, e, hp, -⟩ := hs.entry n hn
  rw [hp] at h0
  cases h0

lemma starts_dispatching (hs : Starts s) : Dispatching s where
  safe := starts_safe hs
  ready := starts_ready hs
  idle := by simp [IdleOff, hs.pc]
  kept := ⟨by simp [hs.log], by simp [hs.log]⟩
  fair := starts_fair hs

variable [Kernel K]

lemma dispatching_step (hs : Dispatching s) {l : Label H (Kernel.World K)} (hl : InBatch l)
    (h : step s l = some t) : Dispatching t := by
  cases l with
  | tau =>
    have h := stepTau_cases h
    exact ⟨safe_tau hs.safe h, ready_tau hs.ready h, idle_tau hs.idle hs.safe hs.ready h,
      kept_tau hs.kept hs.safe h, fair_tau hs.fair hs.safe hs.ready hs.idle h⟩
  | ret th r =>
    have h := stepRet_cases h
    exact ⟨safe_ret hs.safe h, ready_ret hs.ready h, idle_ret hs.idle h, kept_ret hs.kept h,
      fair_ret hs.fair hs.safe h⟩
  | call th c =>
    have h := step_call h
    have hsafe := safe_call hs.safe (reaches_of_armed hs.fair.armed_le c) h
    have hready := ready_call hs.ready hs.safe hs.fair.armed_le h
    exact ⟨hsafe, hready, idle_call hs.idle h, kept_call hs.kept hsafe hready h,
      fair_call hs.fair h⟩
  | world w =>
    obtain ⟨k, hk, rfl⟩ := step_world h
    exact ⟨hs.safe.of_le hs.safe.alive le_rfl rfl rfl (fun _ => rfl) (fun _ _ h => h) hs.safe.here,
      hs.ready, hs.idle, ⟨hs.kept.off, hs.kept.past⟩, ⟨hs.fair.inside, hs.fair.full, hs.fair.scan,
        hs.fair.below, hs.fair.complete, hs.fair.ended⟩⟩
  | execute | fill | fail | throws => exact absurd hl id

lemma dispatching_run {ls : List (Label H (Kernel.World K))} (hs : Starts s)
    (hls : ∀ l ∈ ls, InBatch l) (h : run step s ls = some t) : Dispatching t :=
  run_inv_of_meets (fun _ _ _ hs hl h => dispatching_step hs hl h) (starts_dispatching hs)
    (meets_of_forall (fun l hl _ => hls l hl) s) h

/-- The loop only follows pointers to the entry of the descriptor that was reported, and calls
no direction after its erasure. -/
structure Sound (s : St H K) : Prop where
  alive : s.pc ≠ .dangling
  entry : ∀ round n d p k, s.pc = .bit round n d p k → Pending s n d →
    ∃ e g, s.lo.eventInfos.find (s.src n) = some (p, e) ∧ e.get d = some g ∧
      step s .tau = some { s with
        pc := .running round n d p k
        log := .invoke round n d (s.src n) g :: s.log }
  past : s.log.Pairwise NotErased

/-- The callbacks of a dispatch: at most one a turn; an event that is pending was served at
every turn the scan has passed; between two calls of one handler every other one is called at
most once, and exactly once if it is pending. -/
structure Serves (s : St H K) : Prop where
  once : (services s.log).Nodup
  all : ∀ n d i, n < s.lo.eventCount.toNat → Pending s n d → Passed i (n, d) s.pc →
    (i, (n, d)) ∈ services s.log
  between : ∀ x y r r' newer mid older, y ≠ x → (∀ k ∈ mid, k.2 ≠ x) →
    services s.log = newer ++ (r', x) :: (mid ++ (r, x) :: older) →
    mid.countP (·.2 = y) ≤ 1 ∧
      (y.1 < s.lo.eventCount.toNat → Pending s y.1 y.2 → mid.countP (·.2 = y) = 1)

omit [Kernel K] in
lemma Passed.of_before {a b : ℕ × (ℕ × Dir)} {pc : Pc} (h : Before turn a b)
    (hb : Passed b.1 b.2 pc) : Passed a.1 a.2 pc := by
  have key : ∀ m, turn b.2 < 2 * m → turn a.2 < turn b.2 → a.2.1 < m := by
    intro m h1 h2
    simp only [turn] at h1 h2
    omega
  have hlt : ∀ m, b.2.1 < m → turn b.2 < 2 * m := by
    intro m hm
    rcases hd : b.2.2 <;> simp only [turn, hd] <;> omega
  cases pc with
  | slot round n k =>
    simp only [Passed, Before] at h hb ⊢
    rcases h with h | ⟨h, h'⟩
    · omega
    · rcases hb with hb | ⟨hb, hb'⟩
      · omega
      · exact Or.inr ⟨by omega, key n (hlt n hb') h'⟩
  | bit round n d p k =>
    simp only [Passed, Before] at h hb ⊢
    omega
  | running round n d p k =>
    simp only [Passed, Before] at h hb ⊢
    omega
  | out | wait | filled | lock | dangling => exact absurd hb id

omit [Kernel K] in
lemma Fair.serves (hs : Fair s) : Serves s where
  once := hs.scan.sorted.imp fun {a b} h heq => by subst heq; exact Before.irrefl _ h
  all := hs.complete
  between := by
    intro x y r r' newer mid older hy hx hlog
    obtain ⟨hle, hone⟩ := hs.scan.one_between turn_inj hlog hx hy
    refine ⟨hle, fun hn hpend => hone fun i hi => ?_⟩
    have hin := hs.inside
    have hlock : s.pc.locked = true := by
      rcases hpc : s.pc <;> simp_all [Pc.locked]
      exact hs.ended hpc y.1 y.2 (by omega) hpend
    refine hs.complete y.1 y.2 i hn hpend (Passed.of_before hi ?_)
    exact hs.below hlock (r', x) (by rw [hlog]; simp)

/-- **The dispatch of one batch**, for every handler table that agrees with it and whatever the
callbacks return, register and erase: nothing erased is followed or called, every round serves
each pending event once at its turn, and when the loop ends nothing of the batch is pending. -/
theorem execute_dispatch {ls : List (Label H (Kernel.World K))} (hs : Starts s)
    (hls : ∀ l ∈ ls, InBatch l) (h : run step s ls = some t) :
    Sound t ∧ Serves t ∧
      (t.pc = .wait → ∀ n d, n < t.lo.eventCount.toNat → ¬ Pending t n d) := by
  obtain ⟨hsafe, hready, -, hkept, hfair⟩ := dispatching_run hs hls h
  refine ⟨⟨hsafe.alive, fun round n d p k hpc hpend => ?_, hkept.past⟩, hfair.serves, ?_⟩
  · obtain ⟨hn, hp⟩ := hsafe.here round n d p k (Or.inl hpc)
    obtain ⟨e, hf⟩ := hsafe.live n d p hn hp hpend
    obtain ⟨g, hg⟩ := Option.isSome_iff_exists.mp (hready n d p hn hp hpend)
    have he : e.get d = some g := by rwa [handler, hf] at hg
    refine ⟨e, g, hf, he, ?_⟩
    have hb : has (t.lo.events n).events d.bit = true := hpend
    simp [step, stepTau, hpc, hb, (NodeMap.find_eq_some.mp hf).2, he]
  · exact hfair.ended

/-- Descriptor 3 is readable and descriptor 4 writable. -/
def twoReady : St ℕ Interest where
  lo := {
    events := fun n => if n = 0 then ⟨EPOLLIN, some 1⟩ else ⟨EPOLLOUT, some 2⟩
    eventCount := 2
    eventInfos := (NodeMap.empty.emplace 3 ⟨some 10, none⟩ 1 rfl).emplace 4 ⟨none, some 11⟩ 2 rfl
    kernel := {
      reg := fun fd => if fd = 3 then some ⟨EPOLLIN ||| EPOLLET, some 1⟩
        else if fd = 4 then some ⟨EPOLLOUT ||| EPOLLET, some 2⟩ else none
      edge := fun _ => 0
      failed := 0 } }
  pc := .slot 0 0 0
  drains := fun _ => []
  src := fun n => if n = 0 then 3 else 4
  log := []

/-- The callback of descriptor 4 erases descriptor 3, which has more to do. -/
def eraseWhileLeft : List (Label ℕ (Kernel.World Interest)) :=
  [.tau, .tau, .ret .loop 1, .tau, .tau, .tau, .tau, .call .loop (.erase .inp 3), .ret .loop 0,
    .tau, .tau, .tau, .tau, .tau, .tau, .tau, .tau]

lemma starts_twoReady : Starts twoReady where
  entry := by
    intro n hn
    have : n = 0 ∨ n = 1 := by change n < 2 at hn; omega
    rcases this with rfl | rfl
    · exact ⟨1, ⟨some 10, none⟩, rfl, rfl, by unfold Pending; decide⟩
    · exact ⟨2, ⟨none, some 11⟩, rfl, rfl, by unfold Pending; decide⟩
  distinct := by
    intro m n hm hn h
    change m < 2 at hm
    change n < 2 at hn
    simp only [twoReady] at h
    split at h <;> split at h <;> first | omega | cases h
  pc := rfl
  log := rfl

theorem execute_dispatch_twoReady : ∃ t, run step twoReady eraseWhileLeft = some t ∧
    t.pc = .wait ∧ services t.log = [(0, (1, .out)), (0, (0, .inp))] ∧
    (Sound t ∧ Serves t ∧
      (t.pc = .wait → ∀ n d, n < t.lo.eventCount.toNat → ¬ Pending t n d)) := by
  have hls : ∀ l ∈ eraseWhileLeft, InBatch l := by simp [eraseWhileLeft, InBatch]
  exact ⟨_, rfl, rfl, rfl, execute_dispatch starts_twoReady hls rfl⟩

end Hbm.Fairness
