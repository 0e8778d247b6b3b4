import Hbm.Fairness

/-!
Two batches with one callback in common.

They agree in what the callback of one descriptor does each time it is called, and in nothing
else. The loop goes round again as long as `eventsLeft` counts something, whichever callback it
is counted for. A callback that throws stays pending without being counted, so the others decide
whether it is called again.
-/

namespace Hbm.Influence

open Hbm.Mask Hbm.Epoll Hbm.Handlers Hbm.Run Hbm.Execute Hbm.Dispatch Hbm.Turns Hbm.Batch
open Hbm.Fairness

variable {H K : Type*}

/-- Nothing is left to do. -/
def Done : Outcome → Prop
  | .ret r => r ≤ 0
  | .throws => False

/-- The first outcome of its kind. -/
def FirstDone (b : ℕ → Outcome) (n : ℕ) : Prop := Done (b n) ∧ ∀ m < n, ¬ Done (b m)

def isCall (fd : Fd) (d : Dir) : Obs H → Bool
  | .invoke _ _ d' fd' _ => decide (fd' = fd ∧ d' = d)
  | _ => false

/-- How often the dispatch has called the callback. -/
def calls (fd : Fd) (d : Dir) (log : List (Obs H)) : ℕ := log.countP (isCall fd d)

/-- What is no call of the callback is not counted. -/
lemma calls_of_not {fd : Fd} {d : Dir} {o : Obs H} {log : List (Obs H)}
    (h : isCall fd d o = false) : calls fd d (o :: log) = calls fd d log :=
  List.countP_cons_of_neg (by simp [h])

/-- The callback is running. -/
def Serving (fd : Fd) (d : Dir) (s : St H K) : Prop :=
  match s.pc with
  | .running _ n e _ _ => e = d ∧ s.src n = fd
  | _ => False

instance (fd : Fd) (d : Dir) (s : St H K) : Decidable (Serving fd d s) := by
  unfold Serving
  split <;> infer_instance

lemma serving_iff {fd : Fd} {d : Dir} {s : St H K} :
    Serving fd d s ↔ ∃ round n p k, s.pc = .running round n d p k ∧ s.src n = fd := by
  unfold Serving
  cases s.pc <;> simp

/-- Nothing is registered or erased, and each call of the callback ends as `b` says. The other
callbacks do what they like. -/
def Plays {W : Type*} (fd : Fd) (d : Dir) (b : ℕ → Outcome) (s : St H K) : Label H W → Prop
  | .tau => True
  | .ret t r => t = .loop → Serving fd d s → b (calls fd d s.log - 1) = .ret r
  | .throws t => t = .loop → Serving fd d s → b (calls fd d s.log - 1) = .throws
  | .world _ => True
  | _ => False

instance {W : Type*} (fd : Fd) (d : Dir) (b : ℕ → Outcome) (s : St H K) (l : Label H W) :
    Decidable (Plays fd d b s l) := by
  cases l <;> unfold Plays <;> infer_instance

/-- A batch in which the event of the descriptor is pending in slot `n`. -/
structure Contains (fd : Fd) (d : Dir) (n : ℕ) (s : St H K) : Prop extends Starts s where
  idle : s.drains .loop = []
  slot : n < s.lo.eventCount.toNat
  src : s.src n = fd
  pending : Pending s n d

/-- The dispatch of such a batch, from the head of the `do` loop to the next `epoll_wait`. -/
structure Dispatched [Kernel K] (fd : Fd) (d : Dir) (b : ℕ → Outcome) (s t : St H K)
    (ls : List (Label H (Kernel.World K))) : Prop where
  contains : ∃ n, Contains fd d n s
  plays : Meets step (Plays fd d b) s ls
  run : run step s ls = some t
  finished : t.pc = .wait

/-- In any two such batches the callback is called the same number of times: up to and including
its first result that is no more than zero. -/
def Uninfluenced (H K : Type*) [Kernel K] (fd : Fd) (d : Dir) (b : ℕ → Outcome) : Prop :=
  ∀ (s t s' t' : St H K) (ls ls' : List (Label H (Kernel.World K))),
    Dispatched fd d b s t ls → Dispatched fd d b s' t' ls' →
    ∃ n, FirstDone b n ∧ calls fd d t.log = n + 1 ∧ calls fd d t'.log = n + 1

/-- Until the callback is done it does not throw. -/
def NoThrow (b : ℕ → Outcome) : Prop := ∀ n, b n = .throws → ∃ m < n, Done (b m)

/-! ### The turns of one callback -/

/-- How often the callback at turn `x` has been called while it is pending: once in every round
that has passed its turn, and then it is counted in `eventsLeft`. -/
@[simp] def Steady (x : ℕ × Dir) (c : ℕ) : Pc → Prop
  | .slot round n k => if x.1 < n then c = round + 1 ∧ 0 < k else c = round
  | .bit round n d _ k => if turn x < turn (n, d) then c = round + 1 ∧ 0 < k else c = round
  | .running round n d _ k =>
    if turn x < turn (n, d) then c = round + 1 ∧ 0 < k
    else if turn x = turn (n, d) then c = round + 1 else c = round
  | _ => False

structure Follows (fd : Fd) (d : Dir) (b : ℕ → Outcome) (n : ℕ) (s : St H K) : Prop where
  safe : Safe s
  ready : Ready s
  inside : Inside s.lo.eventCount.toNat s.pc
  full : ∀ m < s.lo.eventCount.toNat, (s.lo.events m).ptr ≠ none
  idle : s.drains .loop = []
  slot : n < s.lo.eventCount.toNat
  src : ∀ m < s.lo.eventCount.toNat, s.src m = fd ↔ m = n
  steady : Pending s n d → Steady (n, d) (calls fd d s.log) s.pc
  undone : Pending s n d → ∀ i < calls fd d s.log,
    (Serving fd d s → i + 1 < calls fd d s.log) → ¬ Done (b i)
  served : ¬ Pending s n d → ∃ j, FirstDone b j ∧ calls fd d s.log = j + 1

variable {fd : Fd} {d : Dir} {b : ℕ → Outcome} {n : ℕ} {s t : St H K}

lemma steady_next {x : ℕ × Dir} {c round m : ℕ} {e : Dir} {p : Addr} {k : ℕ} :
    Steady x c (next round m e p k) ↔
      if turn x ≤ turn (m, e) then c = round + 1 ∧ 0 < k else c = round := by
  cases e
  · simp only [next, Steady, turn_lt_out]
  · simp only [next, Steady, turn_le_out]

lemma not_serving (h : ∀ round m e p k, s.pc ≠ .running round m e p k) : ¬ Serving fd d s := by
  rw [serving_iff]
  rintro ⟨round, m, p, k, hpc, -⟩
  exact h _ _ _ _ _ hpc

/-- A callback other than the one at the turn `(n, d)` is running. -/
lemma Follows.not_serving_of_ne (hs : Follows fd d b n s) {round m : ℕ} {e : Dir} {p : Addr}
    {k : ℕ} (hpc : s.pc = .running round m e p k) (hne : (n, d) ≠ (m, e)) : ¬ Serving fd d s := by
  rw [serving_iff]
  rintro ⟨round', m', p', k', hpc', hsrc⟩
  rw [hpc] at hpc'
  cases hpc'
  have hm := (hs.safe.here round m d p k (Or.inr hpc)).1
  rw [armed_def, hpc] at hm
  exact hne (by rw [(hs.src m hm).mp hsrc])

/-- A step that neither calls the callback nor serves it. -/
lemma Follows.keep (hs : Follows fd d b n s) (hsafe : Safe t) (hready : Ready t)
    (hin : Inside t.lo.eventCount.toNat t.pc) (hidle : t.drains .loop = s.drains .loop)
    (hcalls : calls fd d t.log = calls fd d s.log) (hc : t.lo.eventCount = s.lo.eventCount)
    (hsrc : t.src = s.src) (hptr : ∀ m, (t.lo.events m).ptr = (s.lo.events m).ptr)
    (hpend : Pending t n d ↔ Pending s n d) (hserv : Serving fd d s → Serving fd d t)
    (hsteady : Pending s n d → Steady (n, d) (calls fd d s.log) s.pc →
      Steady (n, d) (calls fd d s.log) t.pc) : Follows fd d b n t where
  safe := hsafe
  ready := hready
  inside := hin
  full := by
    intro m hm
    rw [hptr]
    exact hs.full m (by rwa [hc] at hm)
  idle := by rw [hidle]; exact hs.idle
  slot := by rw [hc]; exact hs.slot
  src := by rw [hc, hsrc]; exact hs.src
  steady := by
    intro h
    rw [hcalls]
    exact hsteady (hpend.mp h) (hs.steady (hpend.mp h))
  undone := by
    intro h i hi hlt
    rw [hcalls] at hi hlt
    exact hs.undone (hpend.mp h) i hi fun hsv => hlt (hserv hsv)
  served := by
    intro h
    rw [hcalls]
    exact hs.served fun h' => h (hpend.mpr h')

lemma follows_tau (hs : Follows fd d b n s) (h : Tau s t) : Follows fd d b n t := by
  have hsafe := safe_tau hs.safe h
  have hready := ready_tau hs.ready h
  have hin := hs.inside
  have hslot := hs.slot
  cases h with
  | store ret eintr hpc pc hnew => simp [hpc] at hin
  | lock hpc => simp [hpc] at hin
  | stop round m k hpc hm hp => exact absurd hp (hs.full m (by omega))
  | enter round m k p hpc hm hp =>
    refine hs.keep hsafe hready trivial rfl rfl rfl rfl (fun _ => rfl) Iff.rfl ?_ ?_
    · exact fun h => absurd h (not_serving (by simp [hpc]))
    · intro _ h
      simpa only [hpc, Steady, turn_lt_inp] using h
  | unlock round m hpc hm =>
    have hoff : ¬ Pending s n d := by
      intro hp
      have hst := hs.steady hp
      rw [hpc] at hst
      simp only [Steady] at hst
      rw [if_pos (by omega)] at hst
      omega
    refine hs.keep hsafe hready trivial rfl rfl rfl rfl (fun _ => rfl) Iff.rfl ?_ ?_
    · exact fun h => absurd h (not_serving (by simp [hpc]))
    · exact fun h => absurd h hoff
  | again round m k hpc hm hk =>
    refine hs.keep hsafe hready (Nat.zero_le _) rfl rfl rfl rfl (fun _ => rfl) Iff.rfl ?_ ?_
    · exact fun h => absurd h (not_serving (by simp [hpc]))
    · intro _ h
      simp only [hpc, Steady] at h ⊢
      rw [if_pos (by omega)] at h
      rw [if_neg (by omega)]
      omega
  | skip round m e p k hpc hb =>
    have hm := (hs.safe.here round m e p k (Or.inl hpc)).1
    rw [armed_def, hpc] at hm
    refine hs.keep hsafe hready (inside_next hm) rfl rfl rfl rfl (fun _ => rfl) Iff.rfl ?_ ?_
    · exact fun h => absurd h (not_serving (by simp [hpc]))
    · intro hp h
      -- the callback's own turn is not passed over
      have hne : turn (n, d) ≠ turn (m, e) := by
        intro heq
        obtain ⟨rfl, rfl⟩ := Prod.mk.inj (turn_inj heq)
        rw [Pending, hb] at hp
        cases hp
      rw [steady_next]
      simp only [hpc, Steady] at h
      split <;> split at h <;> omega
  | dangling round m e p k hpc hb hmem => exact absurd rfl hsafe.alive
  | empty round m e p k x hpc hb hmem he =>
    obtain ⟨hm, hp⟩ := hs.safe.here round m e p k (Or.inl hpc)
    obtain ⟨x', hf⟩ := hs.safe.live m e p hm hp hb
    have hset := hs.ready m e p hm hp hb
    rw [(NodeMap.find_eq_some.mp hf).2] at hmem
    cases hmem
    rw [handler, hf, Option.bind_some, he] at hset
    cases hset
  | invoke round m e p k x g hpc hb hmem he =>
    have hm := (hs.safe.here round m e p k (Or.inl hpc)).1
    rw [armed_def, hpc] at hm
    by_cases heq : (n, d) = (m, e)
    · obtain ⟨rfl, rfl⟩ := Prod.mk.inj heq
      have hst := hs.steady hb
      simp only [hpc, Steady, lt_irrefl, if_false] at hst
      have hcall : calls fd d (.invoke round n d (s.src n) g :: s.log) = round + 1 := by
        simp [calls, isCall, (hs.src n hm).mpr rfl] at hst ⊢
        exact hst
      refine ⟨hsafe, hready, trivial, hs.full, hs.idle, hm, hs.src, fun _ => ?_,
        fun _ i hi hlt => ?_, fun h => absurd hb h⟩
      · simp [hcall]
      · have hi' := hlt ⟨rfl, (hs.src n hm).mpr rfl⟩
        rw [hcall] at hi'
        exact hs.undone hb i (by omega) fun h => absurd h (not_serving (by simp [hpc]))
    · have hcall : calls fd d (.invoke round m e (s.src m) g :: s.log) = calls fd d s.log := by
        have : ¬ (s.src m = fd ∧ e = d) := by
          rintro ⟨h1, rfl⟩
          exact heq (by rw [(hs.src m hm).mp h1])
        simp [calls, isCall, this]
      have hne : turn (n, d) ≠ turn (m, e) := fun h => heq (turn_inj h)
      refine hs.keep hsafe hready trivial rfl hcall rfl rfl (fun _ => rfl) Iff.rfl ?_ ?_
      · exact fun h => absurd h (not_serving (by simp [hpc]))
      · intro _ h
        simp only [hpc, Steady] at h ⊢
        rw [if_neg hne]
        exact h

/-- Serving one turn leaves what is pending at another. -/
lemma pending_turnOffSlot_of_ne {l : EventLoop H K} {m : ℕ} {e : Dir} (hne : (n, d) ≠ (m, e)) :
    has ((turnOffSlot l m e).events n).events d.bit = has (l.events n).events d.bit := by
  by_cases hm : n = m
  · subst hm
    have hd : e ≠ d := fun h => hne (by rw [h])
    simp only [turnOffSlot, Function.update_self]
    exact has_clear_of_disjoint (Dir.bit_disjoint hd) _
  · simp [turnOffSlot, Function.update_of_ne hm]

/-- What `turn x` sees of a callback that returns or throws at another turn. -/
lemma steady_next_of_ne {x y : ℕ × Dir} {c round k k' : ℕ} {p : Addr} (hne : x ≠ y) (hk : k ≤ k')
    (h : Steady x c (.running round y.1 y.2 p k)) : Steady x c (next round y.1 y.2 p k') := by
  have hne : turn x ≠ turn y := fun h => hne (turn_inj h)
  rw [steady_next]
  simp only [Steady, Prod.mk.eta, if_neg hne] at h ⊢
  split <;> split at h <;> omega

lemma follows_ret (hs : Follows fd d b n s) {th : Thread} {r : ℤ}
    (hb : th = .loop → Serving fd d s → b (calls fd d s.log - 1) = .ret r) (h : Ret s th r t) :
    Follows fd d b n t := by
  have hsafe := safe_ret hs.safe h
  have hready := ready_ret hs.ready h
  cases h with
  | again f rest hd hr =>
    exact hs.keep hsafe hready hs.inside rfl (calls_of_not rfl) rfl rfl (fun _ => rfl)
      Iff.rfl id fun _ h => h
  | drained f rest hd hr =>
    have hth : th ≠ .loop := by
      rintro rfl
      rw [hs.idle] at hd
      cases hd
    exact hs.keep hsafe hready hs.inside (Function.update_of_ne hth.symm _ _)
      (calls_of_not rfl) rfl rfl (fun _ => rfl) Iff.rfl id fun _ h => h
  | more round m e p k hd ht hpc hr =>
    have hm := (hs.safe.here round m e p k (Or.inr hpc)).1
    rw [armed_def, hpc] at hm
    have hcall : calls fd d (.result e (s.src m) r :: s.log) = calls fd d s.log :=
      calls_of_not rfl
    by_cases heq : (n, d) = (m, e)
    · obtain ⟨rfl, rfl⟩ := Prod.mk.inj heq
      have hserv : Serving fd d s := serving_iff.mpr ⟨round, n, p, k, hpc, (hs.src n hm).mpr rfl⟩
      refine ⟨hsafe, hready, inside_next hm, hs.full, hs.idle, hm, hs.src, fun hp => ?_,
        fun hp i hi _ => ?_, fun h => ?_⟩
      · have hst := hs.steady hp
        simp only [hpc, Steady, lt_irrefl, if_false, if_true] at hst
        rw [hcall, steady_next, if_pos le_rfl]
        exact ⟨hst, by omega⟩
      · rw [hcall] at hi
        by_cases hlt : i + 1 < calls fd d s.log
        · exact hs.undone hp i hi fun _ => hlt
        · -- the call that has just returned
          have hi' : calls fd d s.log - 1 = i := by omega
          rw [← hi', hb ht hserv]
          exact not_le.mpr hr
      · rw [hcall]
        exact hs.served h
    · refine hs.keep hsafe hready (inside_next hm) rfl hcall rfl rfl (fun _ => rfl) Iff.rfl ?_ ?_
      · exact fun h => absurd h (hs.not_serving_of_ne hpc heq)
      · intro _ h
        rw [hpc] at h
        exact steady_next_of_ne (y := (m, e)) heq (Nat.le_succ k) h
  | done round m e p k hd ht hpc hr =>
    have hm := (hs.safe.here round m e p k (Or.inr hpc)).1
    rw [armed_def, hpc] at hm
    have hcall : calls fd d (.result e (s.src m) r :: s.log) = calls fd d s.log :=
      calls_of_not rfl
    by_cases heq : (n, d) = (m, e)
    · obtain ⟨rfl, rfl⟩ := Prod.mk.inj heq
      have hserv : Serving fd d s := serving_iff.mpr ⟨round, n, p, k, hpc, (hs.src n hm).mpr rfl⟩
      have hoff : ∀ {u : St H K}, u.lo = turnOffSlot s.lo n d → ¬ Pending u n d := by
        intro u hu
        rw [Pending, hu, not_pending_turnOffSlot]
        decide
      refine ⟨hsafe, hready, inside_next hm, fun i hi => ?_, hs.idle, hm, hs.src,
        fun hp => absurd hp (hoff rfl), fun hp => absurd hp (hoff rfl), fun _ => ?_⟩
      · rw [turnOffSlot_ptr]
        exact hs.full i hi
      · rw [hcall]
        by_cases hp : Pending s n d
        · have hst := hs.steady hp
          simp only [hpc, Steady, lt_irrefl, if_false, if_true] at hst
          refine ⟨round, ⟨?_, fun i hi => hs.undone hp i (by omega) fun _ => by omega⟩, hst⟩
          have hbr := hb ht hserv
          rw [hst, Nat.add_sub_cancel] at hbr
          rw [hbr]
          exact hr
        · exact hs.served hp
    · have hpend : Pending { s with
          lo := turnOffSlot s.lo m e
          pc := next round m e p k
          log := .result e (s.src m) r :: s.log } n d ↔ Pending s n d := by
        rw [Pending, Pending, pending_turnOffSlot_of_ne heq]
      refine hs.keep hsafe hready (inside_next hm) rfl hcall rfl rfl
        (fun i => turnOffSlot_ptr s.lo m i e) hpend ?_ ?_
      · exact fun h => absurd h (hs.not_serving_of_ne hpc heq)
      · intro _ h
        rw [hpc] at h
        exact steady_next_of_ne (y := (m, e)) heq le_rfl h

lemma ready_throw (hr : Ready s) {th : Thread} (h : Throw s th t) : Ready t := by
  cases h with
  | drain f rest hd => exact hr
  | caught round m e p k hd ht hpc =>
    exact hr.of_le (Nat.le_of_eq (armed_next (Or.inr hpc) rfl)) rfl rfl (fun _ => rfl)
      (fun _ _ h => h)

/-- An exception of the callback itself comes after its first result that is no more than zero:
by then it is not called any more. -/
lemma follows_throw (hno : NoThrow b) (hs : Follows fd d b n s) {th : Thread}
    (hb : th = .loop → Serving fd d s → b (calls fd d s.log - 1) = .throws) (h : Throw s th t) :
    Follows fd d b n t := by
  have hsafe := safe_throw hs.safe h
  have hready := ready_throw hs.ready h
  cases h with
  | drain f rest hd =>
    have hth : th ≠ .loop := by
      rintro rfl
      rw [hs.idle] at hd
      cases hd
    exact hs.keep hsafe hready hs.inside (Function.update_of_ne hth.symm _ _) rfl rfl rfl
      (fun _ => rfl) Iff.rfl id fun _ h => h
  | caught round m e p k hd ht hpc =>
    have hm := (hs.safe.here round m e p k (Or.inr hpc)).1
    rw [armed_def, hpc] at hm
    by_cases heq : (n, d) = (m, e) ∧ Pending s n d
    · obtain ⟨heq, hp⟩ := heq
      obtain ⟨rfl, rfl⟩ := Prod.mk.inj heq
      have hserv : Serving fd d s := serving_iff.mpr ⟨round, n, p, k, hpc, (hs.src n hm).mpr rfl⟩
      obtain ⟨i, hi, hdone⟩ := hno _ (hb ht hserv)
      exact absurd hdone (hs.undone hp i (by omega) fun _ => by omega)
    · refine ⟨hsafe, hready, inside_next hm, hs.full, hs.idle, hs.slot, hs.src, fun hp => ?_,
        fun hp i hi _ => ?_, hs.served⟩
      · have hst := hs.steady hp
        rw [hpc] at hst
        exact steady_next_of_ne (y := (m, e)) (fun h => heq ⟨h, hp⟩) le_rfl hst
      · exact hs.undone hp i hi fun h =>
          absurd h (hs.not_serving_of_ne hpc fun h => heq ⟨h, hp⟩)

lemma follows_starts (hs : Contains fd d n s) : Follows fd d b n s := by
  have hdis := starts_dispatching hs.toStarts
  refine ⟨hdis.safe, hdis.ready, hdis.fair.inside, hdis.fair.full, hs.idle, hs.slot,
    fun m hm => ⟨fun h => hs.distinct m n hm hs.slot (h.trans hs.src.symm), ?_⟩, fun _ => ?_,
    fun _ i hi => ?_, fun h => absurd hs.pending h⟩
  · rintro rfl
    exact hs.src
  · simp [hs.pc, hs.log, calls]
  · simp [hs.log, calls] at hi

variable [Kernel K]

lemma follows_step (hno : NoThrow b) (hs : Follows fd d b n s) {l : Label H (Kernel.World K)}
    (hl : Plays fd d b s l) (h : step s l = some t) : Follows fd d b n t := by
  cases l with
  | tau => exact follows_tau hs (stepTau_cases h)
  | ret th r => exact follows_ret hs hl (stepRet_cases h)
  | throws th => exact follows_throw hno hs hl (stepThrow_cases h)
  | world w =>
    obtain ⟨k, hk, rfl⟩ := step_world h
    have hsafe := hs.safe.of_le (t := { s with lo := { s.lo with kernel := k } }) hs.safe.alive
      le_rfl rfl rfl (fun _ => rfl) (fun _ _ h => h) hs.safe.here
    exact hs.keep hsafe hs.ready hs.inside rfl rfl rfl rfl (fun _ => rfl) Iff.rfl id fun _ h => h
  | execute | fill | fail | call => exact absurd hl id

lemma follows_run (hno : NoThrow b) (hs : Contains fd d n s) {ls : List (Label H (Kernel.World K))}
    (hls : Meets step (Plays fd d b) s ls) (h : run step s ls = some t) : Follows fd d b n t :=
  run_inv_of_meets (fun _ _ _ hs hl h => follows_step hno hs hl h) (follows_starts hs) hls h

/-- Without such an exception the callback is called until it is done, whatever else is in the
batch. -/
lemma Dispatched.calls_eq (hno : NoThrow b) {ls : List (Label H (Kernel.World K))}
    (h : Dispatched fd d b s t ls) : ∃ j, FirstDone b j ∧ calls fd d t.log = j + 1 := by
  obtain ⟨n, hn⟩ := h.contains
  have ht := follows_run hno hn h.plays h.run
  refine ht.served fun hp => ?_
  have hst := ht.steady hp
  rw [h.finished] at hst
  exact hst

lemma FirstDone.unique {i j : ℕ} (hi : FirstDone b i) (hj : FirstDone b j) : i = j := by
  rcases Nat.lt_trichotomy i j with h | h | h
  · exact absurd hi.1 (hj.2 i h)
  · exact h
  · exact absurd hj.1 (hi.2 j h)

/-- The round the loop is in. -/
@[simp] def roundOf : Pc → ℕ
  | .slot round .. => round
  | .bit round .. => round
  | .running round .. => round
  | _ => 0

/-- A batch that goes on because of others: the callback is called in every round until it is
done, and then no more. -/
theorem calls_of_round (hno : NoThrow b) (hs : Contains fd d n s)
    {ls : List (Label H (Kernel.World K))} (hls : Meets step (Plays fd d b) s ls)
    (h : run step s ls = some t) {j : ℕ} (hj : FirstDone b j) :
    calls fd d t.log ≤ j + 1 ∧ (j < roundOf t.pc → calls fd d t.log = j + 1) := by
  have ht := follows_run hno hs hls h
  by_cases hp : Pending t n d
  · have hst := ht.steady hp
    have hle : calls fd d t.log ≤ j + 1 := by
      by_contra hlt
      exact ht.undone hp j (by omega) (fun _ => by omega) hj.1
    refine ⟨hle, fun hround => ?_⟩
    -- a call of this round, unless the turn is still to come
    by_contra hne
    refine ht.undone hp j ?_ (fun hserv => ?_) hj.1
    · rcases hpc : t.pc <;> simp only [hpc, Steady, roundOf] at hst hround <;>
        first
          | omega
          | (split at hst <;> omega)
          | (split at hst <;> [omega; split at hst <;> omega])
    · obtain ⟨round, m, p, k, hpc, hsrc⟩ := serving_iff.mp hserv
      have hm := (ht.safe.here round m d p k (Or.inr hpc)).1
      rw [armed_def, hpc] at hm
      obtain rfl := (ht.src m hm).mp hsrc
      simp only [hpc, Steady, roundOf, lt_irrefl, if_false, if_true] at hst hround
      omega
  · obtain ⟨i, hi, hcalls⟩ := ht.served hp
    obtain rfl := hi.unique hj
    exact ⟨Nat.le_of_eq hcalls, fun _ => hcalls⟩

/-! ### A batch of one descriptor -/

/-- A batch with nothing but one event of the descriptor. -/
def lone (fd : Fd) (d : Dir) (g : H) (kernel : K) : St H K where
  lo := {
    events := fun _ => ⟨d.bit, some 0⟩
    eventCount := 1
    eventInfos := NodeMap.empty.emplace fd (EventsHandlers.empty.set d (some g)) 0 rfl
    kernel := kernel }
  pc := .slot 0 0 0
  drains := fun _ => []
  src := fun _ => fd
  log := []

/-- The loop in its round `r`. -/
def atRound (fd : Fd) (d : Dir) (g : H) (kernel : K) (r : ℕ) (log : List (Obs H)) : St H K :=
  { lone fd d g kernel with pc := .slot r 0 0, log := log }

/-- The step with which it ends on the loop thread. -/
def label {W : Type*} : Outcome → Label H W
  | .ret r => .ret .loop r
  | .throws => .throws .loop

/-- From the head of the round to the callback. -/
def before {W : Type*} : Dir → List (Label H W)
  | .inp => [.tau, .tau]
  | .out => [.tau, .tau, .tau]

/-- From the callback to the end of the round. -/
def after {W : Type*} : Dir → List (Label H W)
  | .inp => [.tau, .tau]
  | .out => [.tau]

omit [Kernel K] in
lemma contains_lone (fd : Fd) (d : Dir) (g : H) (kernel : K) :
    Contains fd d 0 (lone fd d g kernel) where
  pc := rfl
  log := rfl
  entry := by
    intro n hn
    refine ⟨0, EventsHandlers.empty.set d (some g), rfl, NodeMap.find_emplace_self rfl,
      fun e he => ?_⟩
    have : e = d := by
      revert he
      cases d <;> cases e <;> simp [Pending, lone] <;> decide
    subst this
    simp
  distinct := by
    intro m n hm hn _
    change m < 1 at hm
    change n < 1 at hn
    omega
  idle := rfl
  slot := Nat.zero_lt_one
  src := rfl
  pending := by cases d <;> simp [Pending, lone] <;> decide

omit [Kernel K] in
lemma calls_invoke (fd : Fd) (d : Dir) (g : H) (r : ℕ) (log : List (Obs H)) :
    calls fd d (.invoke r 0 d fd g :: log) = calls fd d log + 1 := by
  simp [calls, isCall]

/-- The callback runs in round `r`. -/
def inCall (fd : Fd) (d : Dir) (g : H) (kernel : K) (r : ℕ) (log : List (Obs H)) : St H K :=
  { lone fd d g kernel with pc := .running r 0 d 0 0, log := .invoke r 0 d fd g :: log }

variable {g : H} {kernel : K} {r : ℕ} {log : List (Obs H)} {o : Outcome}

omit [Kernel K] in
lemma has_bit (d e : Dir) : has d.bit e.bit = decide (e = d) := by cases d <;> cases e <;> decide

lemma run_before :
    run step (atRound fd d g kernel r log) (before d) = some (inCall fd d g kernel r log) := by
  cases d <;> simp [before, atRound, inCall, lone, step, stepTau, has_bit, next, NodeMap.emplace,
    EventsHandlers.get, EventsHandlers.set]

/-- The way to the end of the call of one round. -/
lemma lone_call (hlog : calls fd d log = r) (hb : b r = o)
    (ht : step (inCall fd d g kernel r log) (label o) = some t) :
    run step (atRound fd d g kernel r log) (before d ++ [label o]) = some t ∧
      Meets step (Plays fd d b) (atRound fd d g kernel r log) (before d ++ [label o]) := by
  have htau : ∀ l ∈ (before d : List (Label H (Kernel.World K))), ∀ s : St H K,
      Plays fd d b s l := by
    cases d <;> simp [before, Plays]
  have hcall : b (calls fd d (inCall fd d g kernel r log).log - 1) = o := by
    rw [inCall, calls_invoke, hlog, Nat.add_sub_cancel, hb]
  have hplays : Plays fd d b (inCall fd d g kernel r log) (label (W := Kernel.World K) o) := by
    cases o with
    | ret x => exact fun _ _ => hcall
    | throws => exact fun _ _ => hcall
  refine ⟨run_snoc_some.mpr ⟨_, run_before, ht⟩, meets_snoc.mpr ⟨meets_of_forall htau _, ?_⟩⟩
  intro u hu
  rw [run_before] at hu
  cases hu
  exact hplays

omit [Kernel K] in
lemma mem_after {W : Type*} {l : Label H W} (h : l ∈ after d) : l = .tau := by
  cases d <;> simpa [after] using h

lemma meets_after {u : St H K} : Meets step (Plays fd d b) u (after d) :=
  meets_of_forall (fun _ hl _ => mem_after hl ▸ trivial) u

variable (g kernel) in
/-- Another round, if the callback returns more than zero. -/
lemma lone_more (hlog : calls fd d log = r) {x : ℤ} (hb : b r = .ret x) (hx : 0 < x) :
    ∃ ls log',
      run step (atRound fd d g kernel r log) ls = some (atRound fd d g kernel (r + 1) log') ∧
      Meets step (Plays fd d b) (atRound fd d g kernel r log) ls ∧ calls fd d log' = r + 1 := by
  have hret : step (inCall fd d g kernel r log) (label (.ret x)) = some
      { lone fd d g kernel with
        pc := next r 0 d 0 1
        log := .result d fd x :: .invoke r 0 d fd g :: log } := by
    simp [label, inCall, lone, step, stepRet, hx]
  obtain ⟨hrun, hplays⟩ := lone_call hlog hb hret
  refine ⟨_, .result d fd x :: .invoke r 0 d fd g :: log, ?_, hplays.append hrun meets_after, ?_⟩
  · rw [run_append, hrun]
    cases d <;> simp [after, atRound, lone, step, stepTau, has_bit, next]
  · rw [← hlog, ← calls_invoke fd d g r log]
    exact calls_of_not rfl

variable (g kernel) in
/-- The last round, if it throws. -/
lemma lone_throws (hlog : calls fd d log = r) (hb : b r = .throws) :
    ∃ ls t, run step (atRound fd d g kernel r log) ls = some t ∧
      Meets step (Plays fd d b) (atRound fd d g kernel r log) ls ∧ t.pc = .wait ∧
      calls fd d t.log = r + 1 := by
  have hthrow : step (inCall fd d g kernel r log) (label .throws) = some
      { lone fd d g kernel with
        pc := next r 0 d 0 0
        log := .invoke r 0 d fd g :: log } := by
    simp [label, inCall, lone, step, stepThrow]
  obtain ⟨hrun, hplays⟩ := lone_call hlog hb hthrow
  refine ⟨_, { lone fd d g kernel with pc := .wait, log := .invoke r 0 d fd g :: log }, ?_,
    hplays.append hrun meets_after, rfl, ?_⟩
  · rw [run_append, hrun]
    cases d <;> simp [after, lone, step, stepTau, has_bit, next]
  · rw [calls_invoke, hlog]

variable (fd d g kernel) in
/-- As long as the callback returns more than zero, round follows round. -/
lemma lone_rounds (m : ℕ) (hb : ∀ i < m, ∃ x, b i = .ret x ∧ 0 < x) :
    ∃ ls log, run step (lone fd d g kernel) ls = some (atRound fd d g kernel m log) ∧
      Meets step (Plays fd d b) (lone fd d g kernel) ls ∧ calls fd d log = m := by
  induction m with
  | zero => exact ⟨[], [], rfl, trivial, rfl⟩
  | succ m ih =>
    obtain ⟨ls, log, hrun, hplays, hlog⟩ := ih fun i hi => hb i (by omega)
    obtain ⟨x, hx, hpos⟩ := hb m (by omega)
    obtain ⟨ms, log', hrun', hplays', hlog'⟩ := lone_more g kernel hlog hx hpos
    refine ⟨ls ++ ms, log', ?_, hplays.append hrun hplays', hlog'⟩
    rw [run_append, hrun]
    exact hrun'

omit [Kernel K] in
/-- The first exception comes after results that are more than zero. -/
lemma exists_first_throw (h : ¬ NoThrow b) :
    ∃ m, b m = .throws ∧ ∀ i < m, ∃ x, b i = .ret x ∧ 0 < x := by
  classical
  simp only [NoThrow, not_forall, not_exists, not_and] at h
  obtain ⟨n, hn, hopen⟩ := h
  have hex : ∃ m, b m = .throws := ⟨n, hn⟩
  refine ⟨Nat.find hex, Nat.find_spec hex, fun i hi => ?_⟩
  have hin : i < n := lt_of_lt_of_le hi (Nat.find_min' hex hn)
  rcases hbi : b i with x | _
  · refine ⟨x, rfl, not_le.mp fun hx => hopen i hin ?_⟩
    rw [hbi]
    exact hx
  · exact absurd hbi (Nat.find_min hex hi)

/-- **Batches with one callback in common**: how often it is called depends on itself alone
exactly if it throws nothing before its first result that is no more than zero. -/
theorem uninfluenced_iff (g : H) (kernel : K) (fd : Fd) (d : Dir) (b : ℕ → Outcome) :
    Uninfluenced H K fd d b ↔ NoThrow b := by
  constructor
  · intro h
    by_contra hno
    -- alone in its batch it is not called again after the exception
    obtain ⟨m, hm, hpos⟩ := exists_first_throw hno
    obtain ⟨ls, log, hrun, hplays, hlog⟩ :=
      lone_rounds fd d g kernel m hpos
    obtain ⟨ms, t, hrun', hplays', hpc, hcalls⟩ :=
      lone_throws g kernel hlog hm
    have hdisp : Dispatched fd d b (lone fd d g kernel) t (ls ++ ms) :=
      ⟨⟨0, contains_lone fd d g kernel⟩, hplays.append hrun hplays',
        by rw [run_append, hrun]; exact hrun', hpc⟩
    obtain ⟨n, hn, hc, -⟩ := h _ _ _ _ _ _ hdisp hdisp
    obtain rfl : m = n := by omega
    rw [FirstDone, hm] at hn
    exact hn.1
  · intro hno s t s' t' ls ls' h h'
    obtain ⟨n, hn, hc⟩ := h.calls_eq hno
    obtain ⟨n', hn', hc'⟩ := h'.calls_eq hno
    obtain rfl := hn.unique hn'
    exact ⟨n, hn, hc, hc'⟩

/-- The first call throws, the next one has nothing left to do. -/
def throwsFirst : ℕ → Outcome
  | 0 => .throws
  | _ => .ret 0

/-- Descriptor 3 throws, and nothing else is in the batch. -/
def aloneInBatch : List (Label ℕ (Kernel.World Interest)) :=
  [.tau, .tau, .throws .loop, .tau, .tau]

/-- Descriptor 3 throws, and descriptor 4 has more to write: there is another round. -/
def besideAnother : List (Label ℕ (Kernel.World Interest)) :=
  [.tau, .tau, .throws .loop, .tau, .tau, .tau, .tau, .ret .loop 1, .tau, .tau, .tau, .ret .loop 0,
    .tau, .tau, .tau, .tau, .ret .loop 0, .tau]

lemma dispatched_alone : ∃ t, Dispatched 3 .inp throwsFirst (lone 3 .inp 10 twoReady.lo.kernel) t
    aloneInBatch ∧ calls 3 .inp t.log = 1 :=
  ⟨_, ⟨⟨0, contains_lone 3 .inp 10 _⟩, by decide +kernel, rfl, rfl⟩, rfl⟩

lemma dispatched_beside : ∃ t, Dispatched 3 .inp throwsFirst twoReady t besideAnother ∧
    calls 3 .inp t.log = 2 := by
  have hcont : Contains 3 .inp 0 twoReady :=
    { starts_twoReady with idle := rfl, slot := by decide, src := rfl, pending := rfl }
  exact ⟨_, ⟨⟨0, hcont⟩, by decide +kernel, rfl, rfl⟩, rfl⟩

/-- The callback throws once in either batch; it is called once in the one and twice in the
other. -/
theorem influenced : ¬ Uninfluenced ℕ Interest 3 .inp throwsFirst := by
  intro h
  obtain ⟨t, ht, hone⟩ := dispatched_alone
  obtain ⟨t', ht', htwo⟩ := dispatched_beside
  obtain ⟨n, -, hn, hn'⟩ := h _ _ _ _ _ _ ht ht'
  omega

end Hbm.Influence
