import Hbm.Epoll
import Hbm.NodeMap
import Mathlib.Data.List.Basic

/-!
The handler table of the Linux event loop and the four operations on it.

`addEvent` and `addOutEvent`, and `eraseEvent` and `eraseOutEvent`, are the same code with the
two directions exchanged. The definitions here are the parts under the mutex; the initial
drain that follows a successful registration is a loop of the machine that runs callbacks.
-/

namespace Hbm.Handlers

open Hbm.Mask Hbm.Epoll

/-- `EventsHandlers_t`; `none` is an empty `std::function`. -/
structure EventsHandlers (H : Type*) where
  inEvent : Option H
  outEvent : Option H

namespace EventsHandlers

variable {H : Type*}

def empty : EventsHandlers H := ⟨none, none⟩

def get (e : EventsHandlers H) : Dir → Option H
  | .inp => e.inEvent
  | .out => e.outEvent

def set (e : EventsHandlers H) : Dir → Option H → EventsHandlers H
  | .inp, h => { e with inEvent := h }
  | .out, h => { e with outEvent := h }

@[simp] lemma get_empty (d : Dir) : (empty : EventsHandlers H).get d = none := by
  cases d <;> rfl

@[simp] lemma get_set_self (e : EventsHandlers H) (d : Dir) (h : Option H) :
    (e.set d h).get d = h := by cases d <;> rfl

lemma get_set_of_ne (e : EventsHandlers H) {d d' : Dir} (hd : d' ≠ d) (h : Option H) :
    (e.set d h).get d' = e.get d' := by
  cases d <;> cases d' <;> first | exact absurd rfl hd | rfl

lemma set_eq_self_iff (e : EventsHandlers H) (d : Dir) (h : Option H) :
    e.set d h = e ↔ e.get d = h := by
  obtain ⟨i, o⟩ := e
  cases d <;> simp [set, get, eq_comm]

end EventsHandlers

/-- `eventInfos_t`. -/
abbrev EventInfos (H : Type*) := NodeMap Fd Addr (EventsHandlers H)

/-- The members of the event loop, with the kernel behind `m_epollfd`. -/
structure EventLoop (H K : Type*) where
  events : ℕ → EpollEvent
  eventCount : ℤ
  eventInfos : EventInfos H
  kernel : K

variable {H K : Type*}

/-- The slot of `m_events` that the loop at the end of the erase functions stops at. -/
def slotOf (events : ℕ → EpollEvent) (eventCount : ℤ) (p : Addr) : Option ℕ :=
  (List.range eventCount.toNat).find? fun n => (events n).ptr == some p

/-- The loop at the end of the erase functions: `removedEvents` are turned off in the first
slot that points to the entry. -/
def turnOff (events : ℕ → EpollEvent) (eventCount : ℤ) (p : Addr) (removedEvents : Events) :
    ℕ → EpollEvent :=
  match slotOf events eventCount p with
  | none => events
  | some n =>
    Function.update events n { events n with events := clear (events n).events removedEvents }

/-- The handler registered for a direction of a descriptor. -/
def handler (t : EventInfos H) (fd : Fd) (d : Dir) : Option H :=
  (t.find fd).bind fun x => x.2.get d

variable [Kernel K]

/-- `addEvent` and `addOutEvent` up to the end of the locked block. The result `-1` is
returned; after `0` the drain follows. `a` is where a new entry would be allocated. -/
def addHandler (d : Dir) (l : EventLoop H K) (fd : Fd) (eventHandler : Option H) (a : Addr)
    (ha : l.eventInfos.mem a = none) : EventLoop H K × ℤ :=
  match eventHandler with
  | none => (l, -1)
  | some h =>
    if fd = -1 then (l, -1) else
    match l.eventInfos.find fd with
    | none =>
      let ev : EpollEvent := ⟨d.bit ||| EPOLLET, some a⟩
      let infos := l.eventInfos.emplace fd (EventsHandlers.empty.set d (some h)) a ha
      let c := Kernel.ctl l.kernel .ADD fd (some ev)
      ({ l with eventInfos := infos, kernel := c.1 }, if c.2 = -1 then -1 else 0)
    | some (p, e) =>
      let events := if (e.get d.other).isSome then d.bit ||| EPOLLET ||| d.other.bit
        else d.bit ||| EPOLLET
      let infos := l.eventInfos.assign fd (e.set d (some h))
      let c := Kernel.ctl l.kernel .MOD fd (some ⟨events, some p⟩)
      ({ l with eventInfos := infos, kernel := c.1 }, if c.2 = -1 then -1 else 0)

def addEvent (l : EventLoop H K) (fd : Fd) (eventHandler : Option H) (a : Addr)
    (ha : l.eventInfos.mem a = none) : EventLoop H K × ℤ :=
  addHandler .inp l fd eventHandler a ha

def addOutEvent (l : EventLoop H K) (fd : Fd) (eventHandler : Option H) (a : Addr)
    (ha : l.eventInfos.mem a = none) : EventLoop H K × ℤ :=
  addHandler .out l fd eventHandler a ha

/-- `eraseEvent` and `eraseOutEvent`. -/
def eraseHandler (d : Dir) (l : EventLoop H K) (fd : Fd) : EventLoop H K × ℤ :=
  match l.eventInfos.find fd with
  | none => (l, -1)
  | some (p, e) =>
    match e.get d with
    | none => (l, -1)
    | some _ =>
      if (e.get d.other).isSome then
        -- the other direction stays registered
        let c := Kernel.ctl l.kernel .MOD fd (some ⟨d.other.bit ||| EPOLLET, some p⟩)
        ({ l with
            events := turnOff l.events l.eventCount p d.bit
            eventInfos := l.eventInfos.assign fd (e.set d none)
            kernel := c.1 }, c.2)
      else
        let c := Kernel.ctl l.kernel .DEL fd none
        ({ l with
            events := turnOff l.events l.eventCount p (EPOLLIN ||| EPOLLOUT)
            eventInfos := l.eventInfos.erase fd
            kernel := c.1 }, c.2)

def eraseEvent (l : EventLoop H K) (fd : Fd) : EventLoop H K × ℤ := eraseHandler .inp l fd

def eraseOutEvent (l : EventLoop H K) (fd : Fd) : EventLoop H K × ℤ := eraseHandler .out l fd

/-! ### Turning events off -/

section TurnOff

variable {ev : ℕ → EpollEvent} {c : ℤ} {p : Addr} {m b : Events} {n : ℕ}

@[simp] lemma turnOff_ptr : (turnOff ev c p m n).ptr = (ev n).ptr := by
  rcases hs : slotOf ev c p with _ | k
  · simp [turnOff, hs]
  · by_cases hk : n = k
    · subst hk; simp [turnOff, hs]
    · simp [turnOff, hs, Function.update_of_ne hk]

lemma has_of_has_turnOff (h : has (turnOff ev c p m n).events b = true) :
    has (ev n).events b = true := by
  rcases hs : slotOf ev c p with _ | k
  · simpa [turnOff, hs] using h
  · by_cases hk : n = k
    · subst hk
      simp only [turnOff, hs, Function.update_self] at h
      exact has_of_has_clear h
    · simpa [turnOff, hs, Function.update_of_ne hk] using h

/-- The first slot that points to the entry is the one that is changed. -/
lemma turnOff_first (hn : n < c.toNat) (hp : (ev n).ptr = some p)
    (hfirst : ∀ k < n, (ev k).ptr ≠ some p) :
    (turnOff ev c p m n).events = clear (ev n).events m := by
  have hs : slotOf ev c p = some n := by
    unfold slotOf
    rw [List.find?_range_eq_some]
    refine ⟨by simp [hp], by simpa using hn, fun k hk => ?_⟩
    simpa using hfirst k hk
  simp [turnOff, hs]

end TurnOff

/-! ### What the operations do -/

section Spec

variable {d : Dir} {l : EventLoop H K} {fd : Fd} {h : H} {a : Addr}
  {ha : l.eventInfos.mem a = none}

@[simp] lemma addHandler_none : addHandler d l fd none a ha = (l, -1) := rfl

@[simp] lemma addHandler_neg (eh : Option H) : addHandler d l (-1) eh a ha = (l, -1) := by
  cases eh <;> simp [addHandler]

/-- The event a registration passes to the kernel, when the entry was `e` before. -/
def eventOf (d : Dir) (e : EventsHandlers H) (p : Addr) : EpollEvent :=
  ⟨if (e.get d.other).isSome then d.bit ||| EPOLLET ||| d.other.bit else d.bit ||| EPOLLET, some p⟩

variable (d h ha) in
/-- A registration inserts an entry and adds, or replaces a handler and modifies. -/
lemma addHandler_some (hfd : fd ≠ -1) : ∃ op p e infos,
    addHandler d l fd (some h) a ha =
      ({ l with
          eventInfos := infos
          kernel := (Kernel.ctl l.kernel op fd (some (eventOf d e p))).1 },
        if (Kernel.ctl l.kernel op fd (some (eventOf d e p))).2 = -1 then -1 else 0) ∧
    (l.eventInfos.find fd = none ∧ op = .ADD ∧ p = a ∧ e = .empty ∧
        infos = l.eventInfos.emplace fd (e.set d (some h)) a ha ∨
      l.eventInfos.find fd = some (p, e) ∧ op = .MOD ∧
        infos = l.eventInfos.assign fd (e.set d (some h))) := by
  rcases hf : l.eventInfos.find fd with _ | ⟨p, e⟩
  · refine ⟨.ADD, a, .empty, _, ?_, Or.inl ⟨rfl, rfl, rfl, rfl, rfl⟩⟩
    simp [addHandler, hfd, hf, eventOf]
  · refine ⟨.MOD, p, e, _, ?_, Or.inr ⟨rfl, rfl, rfl⟩⟩
    simp only [addHandler, if_neg hfd, hf, eventOf]
    rfl

variable (d l fd a ha) in
/-- A registration leaves the batch alone. -/
lemma addHandler_frame (eh : Option H) : (addHandler d l fd eh a ha).1.events = l.events ∧
    (addHandler d l fd eh a ha).1.eventCount = l.eventCount := by
  rcases eh with _ | h
  · exact ⟨rfl, rfl⟩
  · by_cases hfd : fd = -1
    · subst hfd
      simp
    · obtain ⟨op, p, e, infos, hr, -⟩ := addHandler_some d h ha hfd
      rw [hr]
      exact ⟨rfl, rfl⟩

@[simp] lemma addHandler_events (eh : Option H) :
    (addHandler d l fd eh a ha).1.events = l.events := (addHandler_frame d l fd a ha eh).1

@[simp] lemma addHandler_eventCount (eh : Option H) :
    (addHandler d l fd eh a ha).1.eventCount = l.eventCount := (addHandler_frame d l fd a ha eh).2

/-- The entry a registration goes to: the one that is there, or a new one. -/
def target (t : EventInfos H) (fd : Fd) (a : Addr) : Addr × EventsHandlers H :=
  (t.find fd).getD (a, .empty)

variable (d h ha) in
lemma find_addHandler_self (hfd : fd ≠ -1) :
    (addHandler d l fd (some h) a ha).1.eventInfos.find fd =
      some ((target l.eventInfos fd a).1, (target l.eventInfos fd a).2.set d (some h)) := by
  obtain ⟨op, p, e, infos, hr, hc⟩ := addHandler_some d h ha hfd
  rw [hr]
  rcases hc with ⟨hf, -, rfl, rfl, rfl⟩ | ⟨hf, -, rfl⟩
  · simp [target, hf]
  · simp [target, hf, NodeMap.find_assign_self hf]

lemma find_addHandler_of_ne (eh : Option H) {k : Fd} (hk : k ≠ fd) :
    (addHandler d l fd eh a ha).1.eventInfos.find k = l.eventInfos.find k := by
  rcases eh with _ | h
  · rfl
  · by_cases hfd : fd = -1
    · subst hfd; simp
    · obtain ⟨op, p, e, infos, hr, hc⟩ :=
        addHandler_some d h ha hfd
      rw [hr]
      rcases hc with ⟨-, -, rfl, rfl, rfl⟩ | ⟨-, -, rfl⟩
      · exact NodeMap.find_emplace_of_ne ha hk
      · exact NodeMap.find_assign_of_ne hk

/-- A registration moves no entry. -/
lemma find_addHandler_grows (eh : Option H) {k : Fd} {p : Addr} {e : EventsHandlers H}
    (hf : l.eventInfos.find k = some (p, e)) :
    ∃ e', (addHandler d l fd eh a ha).1.eventInfos.find k = some (p, e') := by
  by_cases hk : k = fd
  · subst hk
    rcases eh with _ | h
    · exact ⟨e, hf⟩
    · by_cases hfd : k = -1
      · subst hfd
        rw [addHandler_neg]
        exact ⟨e, hf⟩
      · exact ⟨e.set d (some h), by rw [find_addHandler_self d h ha hfd, target, hf]; rfl⟩
  · exact ⟨e, by rw [find_addHandler_of_ne eh hk, hf]⟩

lemma handler_eq_some {t : EventInfos H} :
    handler t fd d = some h ↔ ∃ p e, t.find fd = some (p, e) ∧ e.get d = some h := by
  simp [handler, Option.bind_eq_some_iff]

/-- Erasing what is not registered changes nothing. -/
lemma eraseHandler_none (hn : handler l.eventInfos fd d = none) :
    eraseHandler d l fd = (l, -1) := by
  rcases hf : l.eventInfos.find fd with _ | ⟨p, e⟩
  · simp [eraseHandler, hf]
  · have he : e.get d = none := by simpa [handler, hf] using hn
    simp [eraseHandler, hf, he]

/-- The events an erasure turns off. -/
def removedEvents (d : Dir) (e : EventsHandlers H) : Events :=
  if (e.get d.other).isSome then d.bit else EPOLLIN ||| EPOLLOUT

/-- An erasure of a registered handler keeps the entry for the other direction, or frees it. -/
lemma eraseHandler_some (hs : handler l.eventInfos fd d = some h) : ∃ op ev p e infos,
    l.eventInfos.find fd = some (p, e) ∧ e.get d = some h ∧
    eraseHandler d l fd =
      ({ l with
          events := turnOff l.events l.eventCount p (removedEvents d e)
          eventInfos := infos
          kernel := (Kernel.ctl l.kernel op fd ev).1 }, (Kernel.ctl l.kernel op fd ev).2) ∧
    ((e.get d.other).isSome = true ∧ op = .MOD ∧ ev = some ⟨d.other.bit ||| EPOLLET, some p⟩ ∧
        infos = l.eventInfos.assign fd (e.set d none) ∨
      e.get d.other = none ∧ op = .DEL ∧ ev = none ∧ infos = l.eventInfos.erase fd) := by
  obtain ⟨p, e, hf, he⟩ := handler_eq_some.mp hs
  rcases ho : e.get d.other with _ | g
  · refine ⟨.DEL, none, p, e, _, hf, he, ?_, Or.inr ⟨ho, rfl, rfl, rfl⟩⟩
    simp [eraseHandler, hf, he, ho, removedEvents]
  · refine ⟨.MOD, _, p, e, _, hf, he, ?_, Or.inl ⟨by simp [ho], rfl, rfl, rfl⟩⟩
    simp [eraseHandler, hf, he, ho, removedEvents]

/-- What an erasure of a registered handler leaves in the table. -/
lemma find_eraseHandler_self (hs : handler l.eventInfos fd d = some h) {p : Addr}
    {e : EventsHandlers H} (hf : l.eventInfos.find fd = some (p, e)) :
    (eraseHandler d l fd).1.eventInfos.find fd =
      if (e.get d.other).isSome then some (p, e.set d none) else none := by
  obtain ⟨op, ev, p', e', infos, hf', he, hr, hc⟩ := eraseHandler_some hs
  rw [hf] at hf'
  cases hf'
  rw [hr]
  rcases hc with ⟨ho, -, -, rfl⟩ | ⟨ho, -, -, rfl⟩
  · simp [ho, NodeMap.find_assign_self hf]
  · simp [ho, NodeMap.find_erase_self]

@[simp] lemma eraseHandler_eventCount : (eraseHandler d l fd).1.eventCount = l.eventCount := by
  rcases hh : handler l.eventInfos fd d with _ | h
  · rw [eraseHandler_none hh]
  · obtain ⟨op, ev, p, e, infos, -, -, hr, -⟩ := eraseHandler_some hh
    rw [hr]

lemma find_eraseHandler_of_ne {k : Fd} (hk : k ≠ fd) :
    (eraseHandler d l fd).1.eventInfos.find k = l.eventInfos.find k := by
  rcases hh : handler l.eventInfos fd d with _ | h
  · rw [eraseHandler_none hh]
  · obtain ⟨op, ev, p, e, infos, -, -, hr, hc⟩ := eraseHandler_some hh
    rw [hr]
    rcases hc with ⟨-, -, -, rfl⟩ | ⟨-, -, -, rfl⟩
    · exact NodeMap.find_assign_of_ne hk
    · exact NodeMap.find_erase_of_ne hk

lemma handler_addHandler_self (hfd : fd ≠ -1) :
    handler (addHandler d l fd (some h) a ha).1.eventInfos fd d = some h := by
  rw [handler, find_addHandler_self d h ha hfd]
  simp

/-- A registration changes one direction of one descriptor. -/
lemma handler_addHandler_of_ne (eh : Option H) {k : Fd} {d' : Dir} (hne : ¬(k = fd ∧ d' = d)) :
    handler (addHandler d l fd eh a ha).1.eventInfos k d' = handler l.eventInfos k d' := by
  by_cases hk : k = fd
  · subst hk
    rcases eh with _ | h
    · rfl
    · by_cases hfd : k = -1
      · subst hfd
        rw [addHandler_neg]
      · have hd : d' ≠ d := fun h => hne ⟨rfl, h⟩
        rw [handler, find_addHandler_self d h ha hfd, target, handler]
        rcases l.eventInfos.find k with _ | ⟨p, e⟩
        · simp [EventsHandlers.get_set_of_ne _ hd]
        · simp [EventsHandlers.get_set_of_ne _ hd]
  · rw [handler, handler, find_addHandler_of_ne eh hk]

lemma handler_eraseHandler_self : handler (eraseHandler d l fd).1.eventInfos fd d = none := by
  rcases hh : handler l.eventInfos fd d with _ | h
  · rw [eraseHandler_none hh]; exact hh
  · obtain ⟨op, ev, p, e, infos, hf, -⟩ := eraseHandler_some hh
    rw [handler, find_eraseHandler_self hh hf]
    split <;> simp

/-- An erasure changes one direction of one descriptor. -/
lemma handler_eraseHandler_of_ne {k : Fd} {d' : Dir} (hne : ¬(k = fd ∧ d' = d)) :
    handler (eraseHandler d l fd).1.eventInfos k d' = handler l.eventInfos k d' := by
  by_cases hk : k = fd
  · subst hk
    rcases hh : handler l.eventInfos k d with _ | h
    · rw [eraseHandler_none hh]
    · obtain ⟨op, ev, p, e, infos, hf, -⟩ := eraseHandler_some hh
      have hd : d' ≠ d := fun h => hne ⟨rfl, h⟩
      rw [handler, find_eraseHandler_self hh hf, handler, hf]
      rcases Dir.eq_or_other d d' with rfl | rfl
      · exact absurd rfl hd
      · rcases ho : e.get d.other with _ | g
        · simp [ho]
        · simp [ho, EventsHandlers.get_set_of_ne _ hd]
  · rw [handler, handler, find_eraseHandler_of_ne hk]

variable {k : Fd} {d' : Dir} {x : H}

/-- A handler in the table after a registration is the new one or was there before. -/
lemma handler_of_addHandler
    (hx : handler (addHandler d l fd (some h) a ha).1.eventInfos k d' = some x) :
    (k = fd ∧ fd ≠ -1 ∧ h = x) ∨ handler l.eventInfos k d' = some x := by
  by_cases hfd : fd = -1
  · subst hfd
    rw [addHandler_neg] at hx
    exact .inr hx
  by_cases hk : k = fd ∧ d' = d
  · obtain ⟨rfl, rfl⟩ := hk
    rw [handler_addHandler_self hfd] at hx
    exact .inl ⟨rfl, hfd, Option.some.inj hx⟩
  · rw [handler_addHandler_of_ne _ hk] at hx
    exact .inr hx

lemma handler_of_eraseHandler (hx : handler (eraseHandler d l fd).1.eventInfos k d' = some x) :
    handler l.eventInfos k d' = some x ∧ ¬(k = fd ∧ d' = d) := by
  have hne : ¬(k = fd ∧ d' = d) := by
    rintro ⟨rfl, rfl⟩
    rw [handler_eraseHandler_self] at hx
    cases hx
  rw [handler_eraseHandler_of_ne hne] at hx
  exact ⟨hx, hne⟩

end Spec

end Hbm.Handlers
