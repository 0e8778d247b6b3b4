import Hbm.OneShot

/-!
What the header promises of a timer, and that the timer under Linux keeps it.

The calls come one after the other here, and every callback returns without calling the timer
again.
-/

namespace Hbm.TimerLaw

open Hbm.Run Hbm.Timer

variable {C : Type*}

/-- A history. The handle is the one that Windows gives to the timer that is set. -/
inductive Event (C : Type*) where
  | set (period_ms : UInt32) (repeated : Bool) (c : C) (handle : ℕ)
  | expire
  | process
  | cancel

/-- The timer of the header: the callback, whether the timer runs, and whether a period has
elapsed that was not reported. -/
structure Law (C : Type*) where
  callback : Option C
  repeated : Bool
  running : Bool
  elapsed : Bool
  log : List (Obs C)

namespace Law

def construct : Law C := ⟨none, false, false, false, []⟩

def tell (s : Law C) (fired : Bool) : List (Obs C) :=
  match s.callback with
  | none => s.log
  | some c => .called c fired :: s.log

/-- A running timer which is cancelled tells it and returns 1. Periods that have elapsed are
reported once. -/
def step (s : Law C) : Event C → Option (Law C)
  | .set p r c _ =>
    if p = 0 then none
    else some { s with callback := some c, repeated := r, running := true, elapsed := false }
  | .expire => if s.running then some { s with running := s.repeated, elapsed := true } else none
  | .process => some (if s.elapsed then { s with elapsed := false, log := s.tell true } else s)
  | .cancel =>
    let log := if s.running then .cancelled 1 :: s.tell false else .cancelled 0 :: s.log
    some { s with running := false, elapsed := false, log }

/-- The timer can be set with any period but zero. -/
lemma step_set {s t : Law C} {p : UInt32} {r : Bool} {c : C} {handle : ℕ}
    (h : s.step (.set p r c handle) = some t) : p ≠ 0 ∧
      t = { s with callback := some c, repeated := r, running := true, elapsed := false } := by
  simp only [step] at h
  split_ifs at h with hp
  exact ⟨hp, (Option.some_inj.mp h).symm⟩

/-- A running timer expires. -/
lemma step_expire {s t : Law C} (h : s.step .expire = some t) : s.running = true ∧
    t = { s with running := s.repeated, elapsed := true } := by
  simp only [step] at h
  split_ifs at h with hr
  exact ⟨hr, (Option.some_inj.mp h).symm⟩

end Law

/-- The invocations of callbacks and the results of `cancel`, the newest first. -/
def outputs (log : List (Obs C)) : List (C × Bool) × List ℤ :=
  (log.filterMap fun o => match o with
    | .called c fired => some (c, fired)
    | _ => none,
  log.filterMap fun o => match o with
    | .cancelled ret => some ret
    | _ => none)

@[simp] lemma outputs_called (c : C) (fired : Bool) (log : List (Obs C)) :
    outputs (.called c fired :: log) = ((c, fired) :: (outputs log).1, (outputs log).2) := rfl

@[simp] lemma outputs_cancelled (ret : ℤ) (log : List (Obs C)) :
    outputs (.cancelled ret :: log) = ((outputs log).1, ret :: (outputs log).2) := rfl

@[simp] lemma outputs_set (c : Option C) (log : List (Obs C)) :
    outputs (.set c :: log) = outputs log := rfl

@[simp] lemma outputs_expired (log : List (Obs C)) : outputs (.expired :: log) = outputs log := rfl

/-! ### The timer under Linux -/

def Event.label : Event C → Label C
  | .set p r c _ => .set p r (some c)
  | .expire => .expire
  | .process => .process
  | .cancel => .cancel

/-- The callback returns, if one was called. -/
def returned (s : St C) : St C :=
  match s.calls with
  | [] => s
  | _ :: _ => (Timer.step s .ret).getD s

/-- A call with its callback. -/
def linuxStep (s : St C) (e : Event C) : Option (St C) := (Timer.step s e.label).map returned

/-- The timer is as the law has it. -/
structure Keeps (l : Law C) (s : St C) : Prop where
  calls : s.calls = []
  isSet : s.eventHandler.isSet = true
  running : s.fd.running = l.running
  elapsed : s.fd.pending ≠ 0 ↔ l.elapsed = true
  handler : l.running = true ∨ l.elapsed = true →
    ∃ c, l.callback = some c ∧ s.eventHandler = .cb c
  again : l.running = true → s.fd.expire.running = l.repeated
  outputs : outputs s.log = outputs l.log

variable {l l' : Law C} {s : St C} {e : Event C}

lemma keeps_construct : Keeps (Law.construct : Law C) construct where
  calls := rfl
  isSet := rfl
  running := rfl
  elapsed := by simp [Law.construct, construct, Timerfd.create]
  handler := by simp [Law.construct]
  again := by simp [Law.construct]
  outputs := rfl

lemma keeps_set (hs : Keeps l s) {p : UInt32} (hp : p ≠ 0) (r : Bool) (c : C) (h : ℕ) :
    ∃ s', linuxStep s (.set p r c h) = some s' ∧
      Keeps { l with callback := some c, repeated := r, running := true, elapsed := false } s' := by
  have hstep : linuxStep s (.set p r c h) = some (returned (set s p r (some c)).2) := rfl
  rw [set_of_ne hp, if_pos hs.isSet] at hstep
  simp only [returned, hs.calls] at hstep
  refine ⟨_, hstep, rfl, rfl, OneShot.running_timespec hp r, ?_, fun _ => ⟨c, rfl, rfl⟩,
    fun _ => ?_, ?_⟩
  · simp [Timerfd.settime]
  · cases r with
    | false => rfl
    | true => exact OneShot.running_timespec hp true
  · simpa using hs.outputs

lemma keeps_expire (hs : Keeps l s) (hr : l.running = true) :
    ∃ s', linuxStep s .expire = some s' ∧
      Keeps { l with running := l.repeated, elapsed := true } s' := by
  have hstep : linuxStep s .expire = some (returned { s with fd := s.fd.expire }) := by
    simp only [linuxStep, Event.label, Timer.step, if_pos (hs.running.trans hr), Option.map_some]
  simp only [returned, hs.calls] at hstep
  refine ⟨_, hstep, rfl, hs.isSet, hs.again hr, ?_, fun _ => hs.handler (.inl hr), fun _ => ?_,
    hs.outputs⟩
  · simp [Timerfd.expire]
  · exact hs.again hr

lemma keeps_process (hs : Keeps l s) :
    ∃ s', linuxStep s .process = some s' ∧
      Keeps (if l.elapsed then { l with elapsed := false, log := l.tell true } else l) s' := by
  have hstep : linuxStep s .process = some (returned (process s).2) := rfl
  by_cases hp : s.fd.pending = 0
  · have hl : l.elapsed = false := by
      rw [Bool.eq_false_iff]
      exact fun h => hs.elapsed.mpr h hp
    rw [OneShot.process_of_read hp] at hstep
    simp only [returned, hs.calls] at hstep
    rw [hl]
    exact ⟨_, hstep, hs⟩
  · have hl : l.elapsed = true := hs.elapsed.mp hp
    obtain ⟨c, hc, hh⟩ := hs.handler (.inr hl)
    rw [OneShot.process_of_cb hp hh] at hstep
    simp only [returned, Timer.step, Option.getD_some, hs.calls] at hstep
    rw [if_pos hl]
    refine ⟨_, hstep, rfl, hs.isSet, hs.running, ?_, fun _ => ⟨c, hc, hh⟩, hs.again, ?_⟩
    · simp
    · simp [Law.tell, hc, hs.outputs]

lemma keeps_cancel (hs : Keeps l s) :
    ∃ s', linuxStep s .cancel = some s' ∧
      Keeps { l with
        running := false
        elapsed := false
        log := if l.running then .cancelled 1 :: l.tell false else .cancelled 0 :: l.log } s' := by
  have hstep : linuxStep s .cancel = some (returned (cancel s)) := rfl
  by_cases hr : s.fd.running = true
  · have hl : l.running = true := hs.running.symm.trans hr
    obtain ⟨c, hc, hh⟩ := hs.handler (.inl hl)
    rw [OneShot.cancel_of_running hr hh] at hstep
    simp only [returned, Timer.step, Option.getD_some, hs.calls] at hstep
    rw [if_pos hl]
    refine ⟨_, hstep, rfl, rfl, rfl, ?_, by simp, by simp, ?_⟩
    · simp [disarm, Timerfd.settime]
    · simp [disarm, Law.tell, hc, hs.outputs]
  · have hl : l.running = false := by
      rw [← hs.running]
      exact Bool.eq_false_iff.mpr hr
    have hcancel : cancel s = disarm { s with eventHandler := .nop } 0 := by
      unfold cancel
      rw [if_neg hr]
    rw [hcancel] at hstep
    simp only [returned, disarm, hs.calls] at hstep
    rw [hl]
    refine ⟨_, hstep, rfl, rfl, rfl, ?_, by simp, by simp, ?_⟩
    · simp [Timerfd.settime]
    · simp [hs.outputs]

/-- **The timer under Linux obeys the header** at every step of a history. -/
theorem keeps_step (hs : Keeps l s) (h : l.step e = some l') :
    ∃ s', linuxStep s e = some s' ∧ Keeps l' s' := by
  cases e with
  | set p r c handle =>
    obtain ⟨hp, rfl⟩ := Law.step_set h
    exact keeps_set hs hp r c handle
  | expire =>
    obtain ⟨hr, rfl⟩ := Law.step_expire h
    exact keeps_expire hs hr
  | process =>
    cases h
    exact keeps_process hs
  | cancel =>
    cases h
    exact keeps_cancel hs

end Hbm.TimerLaw
