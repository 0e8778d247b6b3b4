import Hbm.Run
import Mathlib.Data.Int.Notation
import Mathlib.Tactic.Cases
import Mathlib.Tactic.Lemma

/-!
The timer: one handler and one timerfd.

`set` arms the timerfd and stores the callback, `cancel` disarms it and tells the callback,
`process` reads the expirations away and calls the stored handler. The callbacks may call `set`
and `cancel` themselves, so the calls that are inside a callback are kept in a stack.
-/

namespace Hbm.Timer

open Hbm.Run

/-! ### timerfd -/

structure Timespec where
  sec : ℕ
  nsec : ℕ
  deriving DecidableEq

def Timespec.zero : Timespec := ⟨0, 0⟩

structure Itimerspec where
  interval : Timespec
  value : Timespec
  deriving DecidableEq

/-- The setting of a timerfd with the time that is left, and the expirations not yet read. -/
structure Timerfd where
  spec : Itimerspec
  pending : ℕ
  deriving DecidableEq

/-- The timerfd of a new timer. -/
def Timerfd.create : Timerfd := ⟨⟨.zero, .zero⟩, 0⟩

/-- `timerfd_settime` clears the expirations. -/
def Timerfd.settime (spec : Itimerspec) : Timerfd := ⟨spec, 0⟩

/-- `cancel` takes the timer for running while time is left. -/
def Timerfd.running (fd : Timerfd) : Bool :=
  fd.spec.value.sec ≠ 0 || fd.spec.value.nsec ≠ 0

/-- The time that is left runs out, and a repeated timer starts again. -/
def Timerfd.expire (fd : Timerfd) : Timerfd :=
  ⟨{ fd.spec with value := fd.spec.interval }, fd.pending + 1⟩

/-! ### The timer -/

/-- `m_eventHandler`: an empty function, the default one, or a callback. -/
inductive EventHandler (C : Type*)
  | empty | nop
  | cb (c : C)
  deriving DecidableEq

/-- The test of an `std::function` for being non-empty. -/
def EventHandler.isSet {C : Type*} : EventHandler C → Bool
  | .empty => false
  | _ => true

def EventHandler.IsCb {C : Type*} (h : EventHandler C) : Prop := ∃ c, h = .cb c

/-- An `std::function` handed over by the caller. -/
def EventHandler.ofCallback {C : Type*} : Option C → EventHandler C
  | none => .empty
  | some c => .cb c

/-- What calling a handler does. -/
inductive Effect (C : Type*)
  | badFunctionCall
  | nothing
  | calls (c : C)
  deriving DecidableEq

def EventHandler.call {C : Type*} : EventHandler C → Effect C
  | .empty => .badFunctionCall
  | .nop => .nothing
  | .cb c => .calls c

inductive Obs (C : Type*)
  /-- a successful `set` -/
  | set (c : Option C)
  /-- `process` has found an expiration -/
  | expired
  | called (c : C) (fired : Bool)
  /-- `cancel` has returned -/
  | cancelled (ret : ℤ)
  deriving DecidableEq

/-- The calls that wait for a callback. -/
inductive Call
  | process | cancel
  deriving DecidableEq

/-- The history is the newest first, it only records what has happened. -/
structure St (C : Type*) where
  eventHandler : EventHandler C
  fd : Timerfd
  calls : List Call
  log : List (Obs C)

inductive Label (C : Type*)
  | set (period_ms : UInt32) (repeated : Bool) (eventHandler : Option C)
  | setDuration (period : ℤ) (repeated : Bool) (eventHandler : Option C)
  | cancel
  /-- the time runs out -/
  | expire
  | process
  /-- the callback of the innermost call returns, or throws -/
  | ret
  | throws

variable {C : Type*}

/-- A timer after its constructor. -/
def construct : St C := ⟨.nop, .create, [], []⟩

def timespec (period_ms : UInt32) (repeated : Bool) : Itimerspec :=
  let period_s := period_ms / 1000
  let rest := period_ms % 1000
  let value : Timespec := ⟨period_s.toNat, (rest * 1000 * 1000).toNat⟩
  ⟨if repeated then value else .zero, value⟩

/-- The test is on the old handler, not on the new one. -/
def set (s : St C) (period_ms : UInt32) (repeated : Bool) (eventHandler : Option C) : ℤ × St C :=
  if period_ms = 0 then (-1, s)
  else
    let h := if s.eventHandler.isSet then .ofCallback eventHandler else .nop
    (0, { s with
      eventHandler := h
      fd := .settime (timespec period_ms repeated)
      log := .set eventHandler :: s.log })

/-- The overload with a duration casts the count to `unsigned int`. -/
def setDuration (s : St C) (period : ℤ) (repeated : Bool) (eventHandler : Option C) : ℤ × St C :=
  set s (UInt32.ofInt period) repeated eventHandler

/-- The end of `cancel`, after the callback. -/
def disarm (s : St C) (retval : ℤ) : St C :=
  { s with fd := .settime ⟨.zero, .zero⟩, log := .cancelled retval :: s.log }

/-- `cancel` up to the callback, or to its end when there is none to call. `timerfd_gettime` does
not fail on the descriptor of the timer. -/
def cancel (s : St C) : St C :=
  let s' := { s with eventHandler := .nop }
  if s.fd.running then
    match s.eventHandler with
    | .cb c => { s' with calls := .cancel :: s.calls, log := .called c false :: s.log }
    | _ => disarm s' 1
  else disarm s' 0

/-- `process` up to the callback, and what it does with an expiration. -/
def process (s : St C) : Option (Effect C) × St C :=
  if s.fd.pending = 0 then (none, s)
  else
    let e := s.eventHandler.call
    let s' := { s with fd := { s.fd with pending := 0 }, log := .expired :: s.log }
    match e with
    | .calls c =>
      (some e, { s' with calls := .process :: s.calls, log := .called c true :: s'.log })
    | _ => (some e, s')

def step (s : St C) : Label C → Option (St C)
  | .set p r h => some (set s p r h).2
  | .setDuration p r h => some (setDuration s p r h).2
  | .cancel => some (cancel s)
  | .expire => if s.fd.running then some { s with fd := s.fd.expire } else none
  | .process => some (process s).2
  | .ret =>
    match s.calls with
    | .process :: cs => some { s with calls := cs }
    | .cancel :: cs => some (disarm { s with calls := cs } 1)
    | [] => none
  | .throws =>
    match s.calls with
    | _ :: cs => some { s with calls := cs }
    | [] => none

/-! ### What the handler is -/

/-- What a label means for the handler. -/
inductive Act (C : Type*)
  | set (c : Option C)
  | cancel | other

def Label.act : Label C → Act C
  | .set p _ h => if p = 0 then .other else .set h
  | .setDuration p _ h => if UInt32.ofInt p = 0 then .other else .set h
  | .cancel => .cancel
  | _ => .other

/-- The calls of `set` and `cancel`, the newest first. -/
def acts (ls : List (Label C)) : List (Act C) := (ls.map Label.act).reverse

/-- The handler after a history. -/
def stored : List (Act C) → EventHandler C
  | [] => .nop
  | .set c :: past => if (stored past).isSet then .ofCallback c else .nop
  | .cancel :: _ => .nop
  | .other :: past => stored past

lemma acts_snoc (ls : List (Label C)) (l : Label C) : acts (ls ++ [l]) = l.act :: acts ls := by
  simp [acts]

variable {s t : St C} {l : Label C}

lemma set_zero (s : St C) (r : Bool) (c : Option C) : set s 0 r c = (-1, s) := rfl

lemma set_of_ne {p : UInt32} (hp : p ≠ 0) (s : St C) (r : Bool) (c : Option C) :
    (set s p r c).2 =
      { s with
        eventHandler := if s.eventHandler.isSet then .ofCallback c else .nop
        fd := .settime (timespec p r)
        log := .set c :: s.log } := by
  simp [set, hp]

lemma set_eventHandler (s : St C) (p : UInt32) (r : Bool) (c : Option C) :
    (set s p r c).2.eventHandler =
      if p = 0 then s.eventHandler
      else if s.eventHandler.isSet then .ofCallback c else .nop := by
  by_cases hp : p = 0
  · simp [hp, set_zero]
  · simp [hp, set_of_ne]

lemma cancel_eventHandler (s : St C) : (cancel s).eventHandler = .nop := by
  unfold cancel
  split
  · split <;> rfl
  · rfl

lemma process_eventHandler (s : St C) : (process s).2.eventHandler = s.eventHandler := by
  unfold process
  split
  · rfl
  · dsimp only
    split <;> rfl

/-- The handler is the product of the calls of `set` and `cancel` alone. -/
lemma eventHandler_eq_stored {ls : List (Label C)} (h : run step construct ls = some s) :
    s.eventHandler = stored (acts ls) := by
  induction ls using List.reverseRecOn generalizing s with
  | nil =>
    obtain rfl : construct = s := by simpa using h
    rfl
  | append_singleton ls l ih =>
    obtain ⟨u, hu, hl⟩ := run_snoc_some.mp h
    have hs := ih hu
    rw [acts_snoc]
    cases l with
    | set p r c =>
      cases hl
      rw [set_eventHandler, hs]
      by_cases hp : p = 0 <;> simp [Label.act, stored, hp]
    | setDuration p r c =>
      cases hl
      rw [setDuration, set_eventHandler, hs]
      by_cases hp : UInt32.ofInt p = 0 <;> simp [Label.act, stored, hp]
    | cancel =>
      cases hl
      exact cancel_eventHandler u
    | expire =>
      simp only [step] at hl
      split at hl <;> cases hl
      exact hs
    | process =>
      cases hl
      exact (process_eventHandler u).trans hs
    | ret =>
      simp only [step] at hl
      split at hl <;> cases hl <;> exact hs
    | throws =>
      simp only [step] at hl
      split at hl <;> cases hl
      exact hs

end Hbm.Timer
