import Hbm.TimerLaw
import Mathlib.Data.List.TakeWhile

/-!
The timer under Windows against what the header promises.

A timer of the timer queue posts one completion packet for each period, and the event loop calls
`process` for a packet whose key is the present handle. The callback is kept when the timer has
expired and when it was cancelled, and `cancel` calls it whatever the timer does.
-/

namespace Hbm.WindowsTimer

open Hbm.Run Hbm.Timer Hbm.TimerLaw

variable {C : Type*}

/-- A timer of the timer queue. -/
structure QueueTimer where
  dueTime : UInt32
  period : UInt32
  fired : Bool

/-- It fires once, or once more each period. -/
def QueueTimer.live (q : QueueTimer) : Bool := !q.fired || q.period ≠ 0

/-- The members of the timer with the kernel's timer behind the handle, which is the key of the
entry of the event loop as well, and the completion packets that are queued. -/
structure Members (C : Type*) where
  hEvent : Option (ℕ × QueueTimer)
  eventHandler : Option C
  packets : List ℕ
  log : List (Obs C)

namespace Members

variable (s : Members C)

def construct : Members C := ⟨none, none, [], []⟩

/-- A call of `m_eventHandler`, if it is not empty. -/
def tell (fired : Bool) : List (Obs C) :=
  match s.eventHandler with
  | none => s.log
  | some c => .called c fired :: s.log

/-- The old timer and the entry of the event loop are taken away. `created` is the handle of the
new one. -/
def set (period_ms : UInt32) (repeated : Bool) (eventHandler : Option C) (created : Option ℕ) :
    ℤ × Members C :=
  let s := { s with hEvent := none }
  let repeatPeriod := if repeated then period_ms else 0
  let s := { s with eventHandler }
  match created with
  | none => (-1, s)
  | some h => (0, { s with hEvent := some (h, ⟨period_ms, repeatPeriod, false⟩) })

def process : Members C := { s with log := s.tell true }

def cancel : ℤ × Members C :=
  let s := { s with hEvent := none }
  (0, { s with log := .cancelled 0 :: s.tell false })

/-- `timerCb`: the present handle is the key of the packet. -/
def expire : Option (Members C) :=
  match s.hEvent with
  | none => none
  | some (h, q) =>
    if q.live then
      some { s with hEvent := some (h, { q with fired := true }), packets := s.packets ++ [h] }
    else none

/-- The event loop comes to the timer: packets without an entry are dropped, and `process` is
called for the first one with an entry. -/
def dispatch : Members C :=
  match s.hEvent with
  | none => { s with packets := [] }
  | some (h, _) =>
    match s.packets.dropWhile (· ≠ h) with
    | [] => { s with packets := [] }
    | _ :: packets => { s with packets }.process

def step (s : Members C) : Event C → Option (Members C)
  | .set p r c handle => some (s.set p r (some c) (some handle)).2
  | .expire => s.expire
  | .process => some s.dispatch
  | .cancel => some s.cancel.2

end Members

/-! ### The same history for all three -/

structure All (C : Type*) where
  law : Law C
  linux : St C
  windows : Members C

def construct : All C := ⟨.construct, Timer.construct, .construct⟩

def step (s : All C) (e : Event C) : Option (All C) := do
  let law ← s.law.step e
  let linux ← linuxStep s.linux e
  let windows ← s.windows.step e
  return { law, linux, windows }

/-- The timer under Linux has called the callbacks that the header promises, and its `cancel`
has returned the results. -/
def LinuxObeys (s : All C) : Prop := outputs s.linux.log = outputs s.law.log

/-- Both have, so they do not differ. -/
def Obeys (s : All C) : Prop := LinuxObeys s ∧ outputs s.windows.log = outputs s.law.log

/-- `cancel` is called only before the first `set`, and when the event loop comes to the timer
while no period has elapsed since the last time, it has no packet for the present handle. -/
def Plain (s : All C) : Event C → Prop
  | .cancel => s.windows.eventHandler = none
  | .process => s.law.elapsed = false → ∀ h q, s.windows.hEvent = some (h, q) →
    h ∉ s.windows.packets
  | _ => True

/-- Never set. -/
structure New (l : Law C) (s : Members C) : Prop where
  hEvent : s.hEvent = none
  eventHandler : s.eventHandler = none
  running : l.running = false
  elapsed : l.elapsed = false

/-- Set, and not cancelled. -/
structure Armed (l : Law C) (s : Members C) (c : C) (h : ℕ) (q : QueueTimer) : Prop where
  hEvent : s.hEvent = some (h, q)
  eventHandler : s.eventHandler = some c
  callback : l.callback = some c
  elapsed : l.elapsed = true → h ∈ s.packets

/-- The kernel's timer fires as long as the timer runs, and again as long as it is repeated. -/
structure Alive (l : Law C) (w : Members C) : Prop where
  none : w.hEvent = none → l.running = false
  live : ∀ {h q}, w.hEvent = some (h, q) → q.live = l.running
  again : ∀ {h q}, w.hEvent = some (h, q) → { q with fired := true }.live = l.repeated

structure Inv (s : All C) : Prop where
  linux : Keeps s.law s.linux
  alive : Alive s.law s.windows
  windows : New s.law s.windows ∨ ∃ c h q, Armed s.law s.windows c h q
  outputs : outputs s.windows.log = outputs s.law.log

variable {s t : All C} {e : Event C} {es : List (Event C)}

lemma alive_of_stopped {l : Law C} {w : Members C} (hev : w.hEvent = none)
    (hr : l.running = false) : Alive l w := by
  refine ⟨fun _ => hr, fun h => ?_, fun h => ?_⟩
  · cases hev.symm.trans h
  · cases hev.symm.trans h

lemma alive_construct : Alive (Law.construct : Law C) .construct := alive_of_stopped rfl rfl

lemma inv_construct : Inv (construct : All C) where
  linux := keeps_construct
  alive := alive_construct
  windows := .inl ⟨rfl, rfl, rfl, rfl⟩
  outputs := rfl

lemma step_some (h : step s e = some t) : s.law.step e = some t.law ∧
    linuxStep s.linux e = some t.linux ∧ s.windows.step e = some t.windows := by
  obtain ⟨law, hlaw, h⟩ := Option.bind_eq_some_iff.mp h
  obtain ⟨linux, hlinux, h⟩ := Option.bind_eq_some_iff.mp h
  obtain ⟨windows, hwindows, h⟩ := Option.bind_eq_some_iff.mp h
  cases h
  exact ⟨hlaw, hlinux, hwindows⟩

section Alive

variable {l l' : Law C} {w : Members C}

lemma alive_set {p : UInt32} (hp : p ≠ 0) (r : Bool) (c : C) (h : ℕ) :
    Alive { l with callback := some c, repeated := r, running := true, elapsed := false }
      (w.set p r (some c) (some h)).2 := by
  refine ⟨nofun, fun hq => ?_, fun hq => ?_⟩
  · cases hq
    rfl
  · cases hq
    cases r with
    | false => rfl
    | true => simpa [QueueTimer.live] using hp

lemma alive_expire (hw : Alive l w) (hr : l.running = true) :
    ∃ w', w.expire = some w' ∧ Alive { l with running := l.repeated, elapsed := true } w' := by
  cases hev : w.hEvent with
  | none => cases (hw.none hev).symm.trans hr
  | some hq =>
    obtain ⟨h, q⟩ := hq
    have hexpire : w.expire = some
        { w with hEvent := some (h, { q with fired := true }), packets := w.packets ++ [h] } := by
      unfold Members.expire
      rw [hev]
      exact if_pos ((hw.live hev).trans hr)
    have hagain : { q with fired := true }.live = l.repeated := hw.again hev
    refine ⟨_, hexpire, nofun, fun hq => ?_, fun hq => ?_⟩
    · cases hq
      exact hagain
    · cases hq
      exact hagain

/-- What the event loop does leaves the kernel's timer alone. -/
lemma dispatch_hEvent : w.dispatch.hEvent = w.hEvent := by
  unfold Members.dispatch
  split
  · rfl
  · split <;> rfl

lemma Alive.of_same (hw : Alive l w) {w' : Members C} (hev : w'.hEvent = w.hEvent)
    (hrun : l'.running = l.running) (hrep : l'.repeated = l.repeated) : Alive l' w' where
  none := fun hn => hrun.trans (hw.none (hev.symm.trans hn))
  live := fun hq => (hw.live (hev.symm.trans hq)).trans hrun.symm
  again := fun hq => (hw.again (hev.symm.trans hq)).trans hrep.symm

lemma alive_step (hw : Alive l w) (h : l.step e = some l') :
    ∃ w', w.step e = some w' ∧ Alive l' w' := by
  cases e with
  | set p r c handle =>
    obtain ⟨hp, rfl⟩ := Law.step_set h
    exact ⟨_, rfl, alive_set hp r c handle⟩
  | expire =>
    obtain ⟨hr, rfl⟩ := Law.step_expire h
    exact alive_expire hw hr
  | process =>
    cases h
    refine ⟨_, rfl, hw.of_same dispatch_hEvent ?_ ?_⟩
    · split_ifs <;> rfl
    · split_ifs <;> rfl
  | cancel =>
    cases h
    exact ⟨_, rfl, alive_of_stopped rfl rfl⟩

end Alive

/-- What holds of the three in every history. -/
structure Sim (l : Law C) (s : All C) : Prop where
  law : s.law = l
  linux : Keeps l s.linux
  alive : Alive l s.windows

lemma sim_step {l l' : Law C} (hs : Sim l s) (h : l.step e = some l') :
    ∃ t, step s e = some t ∧ Sim l' t := by
  obtain ⟨rfl, hk, ha⟩ := hs
  obtain ⟨linux, hlinux, hk'⟩ := keeps_step hk h
  obtain ⟨windows, hwindows, ha'⟩ := alive_step ha h
  refine ⟨⟨l', linux, windows⟩, ?_, rfl, hk', ha'⟩
  simp [step, h, hlinux, hwindows]

/-- **Every history of the header's timer** is one of both timers. -/
theorem run_of_law {l : Law C} (h : run Law.step .construct es = some l) :
    ∃ s, run step construct es = some s ∧ s.law = l := by
  have hstep : ∀ (l : Law C) (s : All C) (e : Event C) (l' : Law C), Sim l s → True →
      l.step e = some l' → ∃ t, step s e = some t ∧ Sim l' t := fun _ _ _ _ hs _ => sim_step hs
  have hsim : Sim (Law.construct : Law C) construct := ⟨rfl, keeps_construct, alive_construct⟩
  obtain ⟨s, hs, ht⟩ := run_sim hstep hsim (meets_of_forall (fun _ _ _ => trivial) _) h
  rw [List.map_id'] at hs
  exact ⟨s, hs, ht.law⟩

lemma keeps_of_step (hs : Keeps s.law s.linux) (h : step s e = some t) :
    Keeps t.law t.linux := by
  obtain ⟨hlaw, hlinux, -⟩ := step_some h
  obtain ⟨linux, hl, hk⟩ := keeps_step hs hlaw
  cases hl.symm.trans hlinux
  exact hk

/-! ### The event loop comes to the timer -/

section Dispatch

variable {w : Members C} {c : C} {h : ℕ} {q : QueueTimer}

lemma dispatch_of_none (hev : w.hEvent = none) : w.dispatch = { w with packets := [] } := by
  unfold Members.dispatch
  rw [hev]

lemma dispatch_of_not_mem (hev : w.hEvent = some (h, q)) (hh : h ∉ w.packets) :
    w.dispatch = { w with packets := [] } := by
  have hdrop : w.packets.dropWhile (· ≠ h) = [] := by
    rw [List.dropWhile_eq_nil_iff]
    intro k hk
    exact decide_eq_true fun heq => hh (heq ▸ hk)
  unfold Members.dispatch
  rw [hev]
  dsimp only
  rw [hdrop]

lemma dispatch_of_mem (hev : w.hEvent = some (h, q)) (hc : w.eventHandler = some c)
    (hh : h ∈ w.packets) :
    ∃ packets, w.dispatch = { w with packets, log := .called c true :: w.log } := by
  unfold Members.dispatch
  rw [hev]
  dsimp only
  split
  · next hdrop =>
    have := List.dropWhile_eq_nil_iff.mp hdrop h hh
    simp at this
  · next k packets hdrop =>
    refine ⟨packets, ?_⟩
    simp only [Members.process, Members.tell, hc]

end Dispatch

/-! ### One step -/

/-- What is kept of the timer under Windows. -/
def Follows (l : Law C) (w : Members C) : Prop :=
  (New l w ∨ ∃ c h q, Armed l w c h q) ∧ outputs w.log = outputs l.log

lemma follows_set (hs : Inv s) (p : UInt32) (r : Bool) (c : C) (h : ℕ) :
    Follows { s.law with callback := some c, repeated := r, running := true, elapsed := false }
      (s.windows.set p r (some c) (some h)).2 :=
  ⟨.inr ⟨c, h, _, rfl, rfl, rfl, by simp⟩, hs.outputs⟩

lemma follows_expire (hs : Inv s) (hr : s.law.running = true) {w : Members C}
    (hw : s.windows.expire = some w) :
    Follows { s.law with running := s.law.repeated, elapsed := true } w := by
  rcases hs.windows with hnew | ⟨c, h, q, ha⟩
  · cases hnew.running.symm.trans hr
  · unfold Members.expire at hw
    rw [ha.hEvent] at hw
    dsimp only at hw
    split_ifs at hw
    cases hw
    refine ⟨.inr ⟨c, h, _, rfl, ha.eventHandler, ha.callback, fun _ => ?_⟩, hs.outputs⟩
    exact List.mem_append_right _ (List.mem_singleton_self h)

lemma follows_process (hs : Inv s) (hok : Plain s .process) :
    Follows (if s.law.elapsed then { s.law with elapsed := false, log := s.law.tell true }
      else s.law) s.windows.dispatch := by
  rcases hs.windows with hnew | ⟨c, h, q, ha⟩
  · rw [hnew.elapsed, dispatch_of_none hnew.hEvent]
    exact ⟨.inl ⟨hnew.hEvent, hnew.eventHandler, hnew.running, hnew.elapsed⟩, hs.outputs⟩
  · cases hel : s.law.elapsed with
    | false =>
      rw [dispatch_of_not_mem ha.hEvent (hok hel h q ha.hEvent)]
      exact ⟨.inr ⟨c, h, q, ha.hEvent, ha.eventHandler, ha.callback,
        fun he => absurd (hel.symm.trans he) (by decide)⟩, hs.outputs⟩
    | true =>
      obtain ⟨packets, hd⟩ := dispatch_of_mem ha.hEvent ha.eventHandler (ha.elapsed hel)
      rw [hd]
      refine ⟨.inr ⟨c, h, q, ha.hEvent, ha.eventHandler, ha.callback, by simp⟩, ?_⟩
      simp [Law.tell, ha.callback, hs.outputs]

lemma follows_cancel (hs : Inv s) (hok : Plain s .cancel) :
    Follows { s.law with
      running := false
      elapsed := false
      log := if s.law.running then .cancelled 1 :: s.law.tell false
        else .cancelled 0 :: s.law.log } s.windows.cancel.2 := by
  have hnone : s.windows.eventHandler = none := hok
  rcases hs.windows with hnew | ⟨c, h, q, ha⟩
  · refine ⟨.inl ⟨rfl, hnone, rfl, rfl⟩, ?_⟩
    simp [Members.cancel, Members.tell, hnone, hnew.running, hs.outputs]
  · cases hnone.symm.trans ha.eventHandler

lemma follows_step (hs : Inv s) (hok : Plain s e) {l : Law C} {w : Members C}
    (h : s.law.step e = some l) (hw : s.windows.step e = some w) : Follows l w := by
  cases e with
  | set p r c handle =>
    obtain ⟨-, rfl⟩ := Law.step_set h
    cases hw
    exact follows_set hs p r c handle
  | expire =>
    obtain ⟨hr, rfl⟩ := Law.step_expire h
    exact follows_expire hs hr hw
  | process =>
    cases h
    cases hw
    exact follows_process hs hok
  | cancel =>
    cases h
    cases hw
    exact follows_cancel hs hok

lemma inv_step (hs : Inv s) (hok : Plain s e) (h : step s e = some t) : Inv t := by
  obtain ⟨hlaw, -, hwindows⟩ := step_some h
  obtain ⟨w, hw, ha⟩ := alive_step hs.alive hlaw
  cases hw.symm.trans hwindows
  obtain ⟨harmed, hout⟩ := follows_step hs hok hlaw hw
  exact ⟨keeps_of_step hs.linux h, ha, harmed, hout⟩

lemma plain_of_obeys (hs : Inv s) (h : step s e = some t) (ht : Obeys t) : Plain s e := by
  obtain ⟨hlaw, -, hwindows⟩ := step_some h
  have hout := ht.2
  cases e with
  | set p r c handle => trivial
  | expire => trivial
  | process =>
    intro hel h q hev hmem
    rcases hs.windows with hnew | ⟨c, h', q', ha⟩
    · cases hnew.hEvent.symm.trans hev
    · obtain ⟨packets, hd⟩ := dispatch_of_mem hev ha.eventHandler hmem
      simp only [Law.step, hel, Bool.false_eq_true, if_false, Option.some.injEq] at hlaw
      simp only [Members.step, hd, Option.some.injEq] at hwindows
      -- the callback is called once more than promised
      rw [← hlaw, ← hwindows, outputs_called, hs.outputs] at hout
      exact absurd (congrArg Prod.fst hout) (List.cons_ne_self _ _)
  | cancel =>
    rcases hs.windows with hnew | ⟨c, h', q', ha⟩
    · exact hnew.eventHandler
    · exfalso
      simp only [Law.step, Option.some.injEq] at hlaw
      simp only [Members.step, Members.cancel, Members.tell, ha.eventHandler,
        Option.some.injEq] at hwindows
      rw [← hlaw, ← hwindows] at hout
      cases hr : s.law.running with
      | true =>
        -- the result is 0 and not 1
        simp only [hr, if_true, outputs_cancelled] at hout
        exact absurd (List.cons.inj (Prod.mk.inj hout).2).1 (by decide)
      | false =>
        -- the callback is called although the timer does not run
        simp only [hr, Bool.false_eq_true, if_false, outputs_cancelled, outputs_called,
          hs.outputs] at hout
        exact absurd (congrArg Prod.fst hout) (List.cons_ne_self _ _)

/-! ### Whole histories -/

/-- **`cancel` obeys the header** in every history under Linux. Both timers do, and call the same
callbacks and return the same results, exactly if `cancel` is called only before the first `set`,
and the event loop finds no packet for the present handle where no period has elapsed. -/
theorem cancel_law (h : run step construct es = some s) :
    Always step LinuxObeys construct es ∧
      (Always step Obeys construct es ↔ Meets step Plain construct es) := by
  constructor
  · rintro ks t - hk
    have hkeeps : Keeps t.law t.linux :=
      run_inv (I := fun u => Keeps u.law u.linux) (fun _ _ _ hu hv => keeps_of_step hu hv)
        keeps_construct hk
    exact hkeeps.outputs
  · exact always_iff_meets (fun _ _ _ => inv_step) (fun _ hs => ⟨hs.linux.outputs, hs.outputs⟩)
      (fun _ _ _ => plain_of_obeys) inv_construct h

/-- A repeated timer expires twice and is set anew, each expiration is processed. -/
def regular : List (Event Unit) :=
  [.cancel, .set 50 true () 1, .expire, .process, .expire, .process, .set 20 false () 2, .expire,
    .process]

theorem cancel_law_regular : ∃ s, run step construct regular = some s ∧
    Always step LinuxObeys construct regular ∧ Always step Obeys construct regular := by
  have h : run step construct regular = some _ := rfl
  refine ⟨_, h, (cancel_law h).1, (cancel_law h).2.mpr ?_⟩
  have hne : ∀ {P : Prop}, true = false → P := nofun
  refine meets_step rfl rfl (meets_step trivial rfl (meets_step trivial rfl ?_))
  refine meets_step hne rfl (meets_step trivial rfl (meets_step hne rfl ?_))
  exact meets_step trivial rfl (meets_step trivial rfl (meets_step hne rfl trivial))

/-- A running timer is cancelled twice, a timer that has fired is cancelled, and a repeated timer
expires twice before it is processed. -/
theorem not_obeys :
    (∃ s, run step construct [.set 50 false () 1, .cancel, .cancel] = some s ∧
      outputs s.linux.log = ([((), false)], [0, 1]) ∧
      outputs s.windows.log = ([((), false), ((), false)], [0, 0])) ∧
    (∃ s, run step construct [.set 50 false () 1, .expire, .process, .cancel] = some s ∧
      outputs s.linux.log = ([((), true)], [0]) ∧
      outputs s.windows.log = ([((), false), ((), true)], [0])) ∧
    ∃ s, run step construct [.set 50 true () 1, .expire, .expire, .process, .process] = some s ∧
      outputs s.linux.log = ([((), true)], []) ∧
      outputs s.windows.log = ([((), true), ((), true)], []) :=
  ⟨⟨_, rfl, rfl, rfl⟩, ⟨_, rfl, rfl, rfl⟩, ⟨_, rfl, rfl, rfl⟩⟩

end Hbm.WindowsTimer
