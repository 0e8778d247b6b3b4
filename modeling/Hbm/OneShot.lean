import Hbm.Timer

/-!
A one-shot timer reports once: what becomes of the callback of one `set`.

While the callback waits, the timer is running or has expired without being read. It is told by
`process` when the expiration is found, or by `cancel` when the timer is still running. In
between, after the expiration and before it is read, `cancel` finds the timer not running and
forgets both. A callback given inside the callback of a `cancel` is forgotten as well: this
`cancel` goes on and disarms the timer.
-/

namespace Hbm.OneShot

open Hbm.Run Hbm.Timer

variable {C : Type*}

/-- The invocations since the last successful `set`, the newest first. -/
def reports : List (Obs C) → List (C × Bool)
  | [] => []
  | .set _ :: _ => []
  | .called c fired :: log => (c, fired) :: reports log
  | _ :: log => reports log

/-- Since the last successful `set`, `cancel` has returned or `process` has found an
expiration. -/
def ended : List (Obs C) → Bool
  | [] => false
  | .set _ :: _ => false
  | .cancelled _ :: _ => true
  | .expired :: _ => true
  | .called .. :: log => ended log

/-- A label that does not set the timer. -/
def NoSet (l : Label C) : Prop := ∀ c, l.act ≠ .set c

/-- The condition on the steps: `cancel` is not called while an expiration waits to be read, and
a `cancel` in whose callback the timer was set does not return before this one has reported. -/
def NotLost (s : St C) : Label C → Prop
  | .cancel => s.fd.pending = 0 ∨ ¬ s.eventHandler.IsCb
  | .ret => ∀ cs, s.calls = .cancel :: cs →
      (s.fd.running = false ∧ s.fd.pending = 0) ∨ ¬ s.eventHandler.IsCb
  | _ => True

/-- The callback has not been told yet, and the timer will come to it. -/
structure Waiting (c : C) (s : St C) : Prop where
  handler : s.eventHandler = .cb c
  oneShot : s.fd.spec.interval = .zero
  armed : (s.fd.running = true ∧ s.fd.pending = 0) ∨ (s.fd.running = false ∧ s.fd.pending ≠ 0)
  untold : reports s.log = []
  notEnded : ended s.log = false

/-- No callback is called any more. -/
structure Settled (c : C) (s : St C) : Prop where
  dead : (s.fd.running = false ∧ s.fd.pending = 0) ∨ ¬ s.eventHandler.IsCb
  once : reports s.log = [] ∨ ∃ fired, reports s.log = [(c, fired)]

/-- The callback is told once or still waits. -/
def Kept (c : C) (s : St C) : Prop := Waiting c s ∨ ∃ fired, reports s.log = [(c, fired)]

variable {s t : St C} {c : C} {l : Label C}

@[simp] lemma running_zero : (Timerfd.settime ⟨.zero, .zero⟩).running = false := rfl

/-- A period that is not zero leaves time to run. -/
lemma running_timespec {p : UInt32} (hp : p ≠ 0) (r : Bool) :
    (Timerfd.settime (timespec p r)).running = true := by
  have hp' : p.toNat ≠ 0 := fun h => hp (UInt32.toNat_inj.mp h)
  have hsec : (p / 1000).toNat = p.toNat / 1000 := UInt32.toNat_div ..
  have hnsec : (p % 1000 * 1000 * 1000).toNat = p.toNat % 1000 * 1000 * 1000 := by
    rw [UInt32.toNat_mul, UInt32.toNat_mul, UInt32.toNat_mod,
      show (1000 : UInt32).toNat = 1000 from rfl]
    omega
  simp only [Timerfd.running, Timerfd.settime, timespec, hsec, hnsec, Bool.or_eq_true,
    decide_eq_true_eq]
  omega

lemma not_isCb_nop : ¬ (EventHandler.nop : EventHandler C).IsCb := by
  rintro ⟨c, h⟩
  cases h

/-! ### One step -/

/-- What a step can do that does not set the timer. -/
inductive Quiet (s : St C) : Label C → St C → Prop
  | cancel : Quiet s .cancel (cancel s)
  | expire (hr : s.fd.running = true) : Quiet s .expire { s with fd := s.fd.expire }
  | process : Quiet s .process (process s).2
  | cancelled (cs : List Call) (hc : s.calls = .cancel :: cs) :
    Quiet s .ret (disarm { s with calls := cs } 1)
  | calls (l : Label C) (cs : List Call) (hl : NotLost s l) : Quiet s l { s with calls := cs }

lemma quiet_of_step (hn : NoSet l) (h : step s l = some t) : Quiet s l t := by
  cases l with
  | set p r c =>
    have hp : p = 0 := by
      by_contra hp
      exact hn c (by simp [Label.act, hp])
    subst hp
    cases h
    exact .calls _ s.calls trivial
  | setDuration p r c =>
    have hp : UInt32.ofInt p = 0 := by
      by_contra hp
      exact hn c (by simp [Label.act, hp])
    simp only [step, setDuration, hp] at h
    cases h
    exact .calls _ s.calls trivial
  | cancel =>
    cases h
    exact .cancel
  | expire =>
    simp only [step] at h
    split at h <;> rename_i hr <;> cases h
    exact .expire hr
  | process =>
    cases h
    exact .process
  | ret =>
    simp only [step] at h
    split at h <;> rename_i hc <;> cases h
    · exact .calls _ _ fun cs' hc' => by simp [hc] at hc'
    · exact .cancelled _ hc
  | throws =>
    simp only [step] at h
    split at h <;> cases h
    exact .calls _ _ trivial

lemma cancel_of_running (hr : s.fd.running = true) (hh : s.eventHandler = .cb c) :
    cancel s =
      { s with
        eventHandler := .nop
        calls := .cancel :: s.calls
        log := .called c false :: s.log } := by
  simp [cancel, hr, hh]

/-- Without a callback to tell, `cancel` disarms the timer at once. -/
lemma cancel_of_dead (h : s.fd.running = false ∨ ¬ s.eventHandler.IsCb) :
    ∃ r, cancel s = disarm { s with eventHandler := .nop } r := by
  unfold cancel
  by_cases hr : s.fd.running = true
  · rw [if_pos hr]
    rcases hh : s.eventHandler with _ | _ | c
    · exact ⟨1, rfl⟩
    · exact ⟨1, rfl⟩
    · simp [hr, hh, EventHandler.IsCb] at h
  · exact ⟨0, by rw [if_neg hr]⟩

lemma process_of_read (hp : s.fd.pending = 0) : (process s).2 = s := by
  simp [process, hp]

lemma process_of_cb (hp : s.fd.pending ≠ 0) (hh : s.eventHandler = .cb c) :
    (process s).2 =
      { s with
        fd := { s.fd with pending := 0 }
        calls := .process :: s.calls
        log := .called c true :: .expired :: s.log } := by
  simp [process, hp, hh, EventHandler.call]

lemma process_of_dead (hp : s.fd.pending ≠ 0) (hh : ¬ s.eventHandler.IsCb) :
    (process s).2 =
      { s with fd := { s.fd with pending := 0 }, log := .expired :: s.log } := by
  rcases he : s.eventHandler with _ | _ | c
  · simp [process, hp, he, EventHandler.call]
  · simp [process, hp, he, EventHandler.call]
  · exact absurd ⟨c, he⟩ hh

/-- Nothing comes after the report: no step calls a callback, and every step is allowed. -/
lemma settled_step (hs : Settled c s) (h : Quiet s l t) :
    Settled c t ∧ reports t.log = reports s.log ∧ NotLost s l := by
  have hd := hs.dead
  cases h with
  | cancel =>
    obtain ⟨r, hr⟩ := cancel_of_dead (s := s) (hd.imp_left And.left)
    rw [hr]
    exact ⟨⟨.inr not_isCb_nop, hs.once⟩, rfl, hd.imp_left And.right⟩
  | expire hr =>
    have hh : ¬ s.eventHandler.IsCb := hd.resolve_left fun h => by simp [hr] at h
    exact ⟨⟨.inr hh, hs.once⟩, rfl, trivial⟩
  | process =>
    by_cases hp : s.fd.pending = 0
    · rw [process_of_read hp]
      exact ⟨hs, rfl, trivial⟩
    · have hh : ¬ s.eventHandler.IsCb := hd.resolve_left fun h => hp h.2
      rw [process_of_dead hp hh]
      exact ⟨⟨.inr hh, hs.once⟩, rfl, trivial⟩
  | cancelled cs hc => exact ⟨⟨.inl ⟨rfl, rfl⟩, hs.once⟩, rfl, fun _ _ => hd⟩
  | calls l cs hl => exact ⟨⟨hd, hs.once⟩, rfl, hl⟩

lemma told (fired : Bool) (hl : NotLost s l) (hd : (t.fd.running = false ∧ t.fd.pending = 0) ∨
    ¬ t.eventHandler.IsCb) (h : reports t.log = [(c, fired)]) :
    (Waiting c t ∨ Settled c t) ∧ (Kept c t ↔ NotLost s l) :=
  ⟨.inr ⟨hd, .inr ⟨fired, h⟩⟩, iff_of_true (.inr ⟨fired, h⟩) hl⟩

lemma lost (hl : ¬ NotLost s l) (hd : t.fd.running = false ∧ t.fd.pending = 0)
    (h : reports t.log = []) (ho : ended t.log = true) :
    (Waiting c t ∨ Settled c t) ∧ (Kept c t ↔ NotLost s l) := by
  refine ⟨.inr ⟨.inl hd, .inl h⟩, iff_of_false ?_ hl⟩
  rintro (hw | ⟨f, hf⟩)
  · have := hw.notEnded
    simp [ho] at this
  · simp [h] at hf

lemma Settled.kept_iff (hs : Settled c s) : Kept c s ↔ reports s.log ≠ [] := by
  constructor
  · rintro (hw | ⟨f, hf⟩)
    · rcases hs.dead with ⟨hr, hp⟩ | hh
      · have := hw.armed
        simp [hr, hp] at this
      · exact absurd ⟨c, hw.handler⟩ hh
    · simp [hf]
  · exact fun h => .inr (hs.once.resolve_left h)

lemma waits (hl : NotLost s l) (hw : Waiting c t) :
    (Waiting c t ∨ Settled c t) ∧ (Kept c t ↔ NotLost s l) :=
  ⟨.inl hw, iff_of_true (.inl hw) hl⟩

/-- While the callback waits, a step tells it, leaves it waiting or loses it, and it loses it
exactly when it is not allowed. -/
lemma waiting_step (hw : Waiting c s) (h : Quiet s l t) :
    (Waiting c t ∨ Settled c t) ∧ (Kept c t ↔ NotLost s l) := by
  have hcb : s.eventHandler.IsCb := ⟨c, hw.handler⟩
  cases h with
  | cancel =>
    rcases hw.armed with ⟨hr, hp⟩ | ⟨hr, hp⟩
    · rw [cancel_of_running hr hw.handler]
      exact told false (.inl hp) (.inr not_isCb_nop) (by simp [reports, hw.untold])
    · -- expired and not read: the callback is dropped with the expiration
      obtain ⟨r, hc⟩ := cancel_of_dead (s := s) (.inl hr)
      rw [hc]
      exact lost (by simp [NotLost, hp, hcb]) ⟨rfl, rfl⟩ hw.untold rfl
  | expire hr =>
    have hz : s.fd.expire.running = false := by
      simp [Timerfd.expire, Timerfd.running, hw.oneShot, Timespec.zero]
    exact waits trivial ⟨hw.handler, hw.oneShot, .inr ⟨hz, Nat.succ_ne_zero _⟩, hw.untold,
      hw.notEnded⟩
  | process =>
    rcases hw.armed with ⟨hr, hp⟩ | ⟨hr, hp⟩
    · rw [process_of_read hp]
      exact waits trivial hw
    · rw [process_of_cb hp hw.handler]
      exact told true trivial (.inl ⟨hr, rfl⟩) (by simp [reports, hw.untold])
  | cancelled cs hc =>
    -- the timer was set inside the callback of this `cancel`
    refine lost (fun h => ?_) ⟨rfl, rfl⟩ hw.untold rfl
    rcases h cs hc with ⟨hr, hp⟩ | hh
    · rcases hw.armed with h | h
      · simp [hr] at h
      · exact h.2 hp
    · exact hh hcb
  | calls l cs hl => exact waits hl ⟨hw.handler, hw.oneShot, hw.armed, hw.untold, hw.notEnded⟩

/-! ### The whole run -/

/-- What holds from the `set` on. -/
def Inv (c : C) (s : St C) : Prop := Waiting c s ∨ Settled c s

lemma inv_step (hs : Inv c s) (hn : NoSet l) (h : step s l = some t) : Inv c t := by
  have hq := quiet_of_step hn h
  rcases hs with hw | hs
  · exact (waiting_step hw hq).1
  · exact .inr (settled_step hs hq).1

lemma kept_step (hs : Inv c s) (hn : NoSet l) (h : step s l = some t) :
    Kept c t ↔ Kept c s ∧ NotLost s l := by
  have hq := quiet_of_step hn h
  rcases hs with hw | hs
  · rw [(waiting_step hw hq).2, and_iff_right (show Kept c s from .inl hw)]
  · obtain ⟨ht, hr, hl⟩ := settled_step hs hq
    rw [ht.kept_iff, hr, hs.kept_iff, and_iff_left hl]

variable {p : UInt32} {later : List (Label C)} {s0 : St C}

lemma waiting_set (hp : p ≠ 0) (hs : s0.eventHandler.isSet = true) :
    Waiting c (set s0 p false (some c)).2 := by
  rw [set_of_ne hp]
  exact ⟨by simp [hs, EventHandler.ofCallback], rfl, .inl ⟨running_timespec hp false, rfl⟩, rfl,
    rfl⟩

/-- After an empty callback the default handler is stored, and no callback is told. -/
lemma settled_set (hp : p ≠ 0) (hs : s0.eventHandler.isSet = false) :
    Settled c (set s0 p false (some c)).2 ∧ ¬ Kept c (set s0 p false (some c)).2 := by
  rw [set_of_ne hp]
  have hset : Settled c
      { s0 with
        eventHandler := if s0.eventHandler.isSet then .ofCallback (some c) else .nop
        fd := .settime (timespec p false)
        log := .set (some c) :: s0.log } :=
    ⟨.inr (by simp [hs, not_isCb_nop]), .inl rfl⟩
  exact ⟨hset, by rw [hset.kept_iff]; simp [reports]⟩

lemma inv_set (hp : p ≠ 0) : Inv c (set s0 p false (some c)).2 := by
  by_cases hs : s0.eventHandler.isSet = true
  · exact .inl (waiting_set hp hs)
  · exact .inr (settled_set hp (by simpa using hs)).1

/-- **A one-shot timer reports at most once, and when it does.** Whatever was before the
`set`, and whatever comes after it up to the next one: the callback has been told at most once.
And when `cancel` has returned or `process` has found the expiration, it has been told exactly
once if and only if the handler that `set` replaced was not empty and every step since then was
allowed. -/
theorem one_report (hp : p ≠ 0) (hn : ∀ l ∈ later, NoSet l)
    (h : run step (set s0 p false (some c)).2 later = some s) :
    (reports s.log = [] ∨ ∃ fired, reports s.log = [(c, fired)]) ∧
      (ended s.log = true → ((∃ fired, reports s.log = [(c, fired)]) ↔
        s0.eventHandler.isSet = true ∧ Meets step NotLost (set s0 p false (some c)).2 later)) := by
  have hs : Inv c s :=
    run_inv_of_labels (fun _ _ _ hu hl ht => inv_step hu hl ht) (inv_set hp) hn h
  refine ⟨?_, fun hended => ?_⟩
  · rcases hs with hw | hs
    · exact .inl hw.untold
    · exact hs.once
  have hkept : Kept c s ↔ ∃ fired, reports s.log = [(c, fired)] :=
    or_iff_right fun hw => by simp [hw.notEnded] at hended
  rw [← hkept]
  by_cases hset : s0.eventHandler.isSet = true
  · rw [and_iff_right hset]
    exact run_iff_meets (fun _ _ _ hu hl ht => inv_step hu hl ht)
      (fun _ _ _ hu hl ht => kept_step hu hl ht) (inv_set hp) (.inl (waiting_set hp hset)) hn h
  · have hsettled := settled_set (c := c) hp (by simpa using hset)
    refine iff_of_false ?_ fun hc => hset hc.1
    have hend := run_inv_of_labels (I := fun u => Settled c u ∧ ¬ Kept c u)
      (fun u l v hu hl hv => ?_) hsettled hn h
    · exact hend.2
    · obtain ⟨hv', hr, -⟩ := settled_step hu.1 (quiet_of_step hl hv)
      exact ⟨hv', by rw [hv'.kept_iff, hr, ← hu.1.kept_iff]; exact hu.2⟩

/-- The timer runs, and the callback is told by `cancel`. -/
def cancelled : List (Label Unit) := [.cancel, .ret, .process]

theorem cancelled_report : ∃ s, run step (set construct 50 false (some ())).2 cancelled = some s ∧
    (reports s.log = [] ∨ ∃ fired, reports s.log = [((), fired)]) ∧
      (ended s.log = true → ((∃ fired, reports s.log = [((), fired)]) ↔
        (construct (C := Unit)).eventHandler.isSet = true ∧
          Meets step NotLost (set construct 50 false (some ())).2 cancelled)) := by
  have h : run step (set construct 50 false (some ())).2 cancelled = some _ := rfl
  exact ⟨_, h, one_report (by decide) (by simp [cancelled, NoSet, Label.act]) h⟩

/-- The timer has expired, and `cancel` comes before `process`. -/
def expiredUnread : List (Label Unit) := [.expire, .cancel, .process]

theorem report_lost : ∃ s,
    run step (set construct 50 false (some ())).2 expiredUnread = some s ∧
      s.log = [.cancelled 0, .set (some ())] ∧ ended s.log = true ∧ reports s.log = [] :=
  ⟨_, rfl, rfl, rfl, rfl⟩

end Hbm.OneShot
