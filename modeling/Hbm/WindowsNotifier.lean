import Hbm.WindowsExecute

/-!
The notifiers of an event loop under Windows.

`notify` posts a packet with the handle of the notifier to the completion port, and `execute` looks
the handle up when it takes the packet off. In between the notifier may be destroyed, and its handle
may be given to another one. `stop` posts a packet of its own, and what is behind it waits for the
next `execute`.
-/

namespace Hbm.WindowsNotifier

open Hbm.Run Hbm.WindowsExecute

/-- `id` tells the objects apart. -/
structure Notifier (C : Type*) where
  id : ℕ
  hEvent : Handle
  eventHandler : Option C

/-- A packet at the completion port. The poster is `none` for `stop`. -/
structure Packet where
  completionKey : Handle
  poster : Option ℕ

/-- What became of a packet of a notifier: whose `process` was called, and the callback that this
has called. -/
structure Handled (C : Type*) where
  poster : ℕ
  notifier : Option ℕ
  callback : Option C

/-- The handlers in the table of the loop are the notifiers. `current` is the poster of the packet
that was taken off last, until it is handled. -/
structure St (C : Type*) where
  loop : WindowsExecute.St ℕ
  notifiers : List (Notifier C)
  next : ℕ
  port : List Packet
  current : Option ℕ
  posted : List ℕ
  handled : List (Handled C)

/-- `inside` is for what the callback does that is being called. -/
inductive Label (C : Type*)
  | create (hEvent : Handle) (inside : Bool)
  | destroy (i : ℕ) (inside : Bool)
  | set (i : ℕ) (eventHandler : Option C)
  | notify (i : ℕ) (posts : Bool)
  | stop
  | execute
  | wakeUp
  | dequeue
  | lookup
  | ret
  | throws

variable {C : Type*}

namespace St

def find (s : St C) (i : ℕ) : Option (Notifier C) := s.notifiers.find? fun n => n.id == i

/-- A change of the table, under the mutex. -/
def change (s : St C) (inside : Bool) (o : Op ℕ) : Option (WindowsExecute.St ℕ) :=
  WindowsExecute.step s.loop (if inside then .handler o else .other o)

/-- `Notifier::process`, if the handle is in the table. -/
def process (s : St C) (event : Handle) (i : ℕ) : Handled C :=
  match s.loop.eventInfos event with
  | none => ⟨i, none, none⟩
  | some j => ⟨i, some j, (s.find j).bind Notifier.eventHandler⟩

/-- A packet with a key of zero ends `execute`, whoever has posted it. -/
def taken (s : St C) (p : Packet) : St C :=
  if p.completionKey = 0 then
    { s with handled := s.handled ++ p.poster.toList.map fun i => ⟨i, none, none⟩ }
  else { s with current := p.poster }

end St

def step (s : St C) : Label C → Option (St C)
  | .create hEvent inside =>
    if s.notifiers.all fun n => n.hEvent != hEvent then
      (s.change inside (.addEvent hEvent (some s.next))).map fun loop => { s with
        loop := loop
        notifiers := s.notifiers ++ [⟨s.next, hEvent, none⟩]
        next := s.next + 1 }
    else none
  | .destroy i inside =>
    match s.find i with
    | none => none
    | some n =>
      -- a callback must not destroy the notifier that is calling it
      if s.loop.phase = .calling n.hEvent then none
      else (s.change inside (.eraseEvent n.hEvent)).map fun loop => { s with
        loop := loop
        notifiers := s.notifiers.filter fun m => m.id != i }
  | .set i eventHandler => some { s with
      notifiers := s.notifiers.map fun n => if n.id = i then { n with eventHandler } else n }
  | .notify i posts =>
    match s.find i with
    | none => none
    | some n =>
      if posts then
        some { s with port := s.port ++ [⟨n.hEvent, some i⟩], posted := s.posted ++ [i] }
      else some s
  | .stop => some { s with port := s.port ++ [⟨0, none⟩] }
  | .execute =>
    if s.loop.phase = .returned ∨ s.loop.phase = .thrown then
      some { s with loop := enter s.loop.eventInfos }
    else none
  | .wakeUp =>
    (WindowsExecute.step s.loop (.dequeue .nothing)).map fun loop => { s with loop := loop }
  | .dequeue =>
    match s.port with
    | [] => none
    | p :: port =>
      (WindowsExecute.step s.loop (.dequeue (.completed p.completionKey))).map fun loop =>
        { s with loop := loop, port := port }.taken p
  | .lookup =>
    match s.loop.phase, s.current with
    | .draining event _, some i =>
      (WindowsExecute.step s.loop .lookup).map fun loop => { s with
        loop := loop
        current := none
        handled := s.handled ++ [s.process event i] }
    | _, _ => none
  | .ret => (WindowsExecute.step s.loop (.ret 0)).map fun loop => { s with loop := loop }
  | .throws => (WindowsExecute.step s.loop .throws).map fun loop => { s with loop := loop }

/-- An event loop that runs, without notifiers. -/
def start : St C := ⟨enter fun _ => none, [], 0, [], none, [], []⟩

/-- The condition on the steps: `CreateEvent` succeeds, and it does not give out a handle for which
a packet is still underway. -/
def FreshHandle (s : St C) : Label C → Prop
  | .create hEvent _ => hEvent ≠ 0 ∧ (∀ p ∈ s.port, p.completionKey ≠ hEvent) ∧
      ∀ retval, s.loop.phase ≠ .draining hEvent retval
  | _ => True

/-- The key is that of the notifier, as long as this is there, and of no other one. -/
def Mine (s : St C) (key : Handle) (i : ℕ) : Prop :=
  key ≠ 0 ∧ i < s.next ∧ ∀ n ∈ s.notifiers, n.id = i ↔ n.hEvent = key

/-- The notifier has been destroyed. -/
def Gone (s : St C) (i : ℕ) : Prop := i < s.next ∧ ∀ n ∈ s.notifiers, n.id ≠ i

/-- The table has exactly the notifiers, each with its own handle. -/
structure Table (s : St C) : Prop where
  ids : ∀ n ∈ s.notifiers, n.id < s.next
  mine : ∀ n ∈ s.notifiers, Mine s n.hEvent n.id
  find : ∀ event i, s.loop.eventInfos event = some i ↔
    ∃ n ∈ s.notifiers, n.hEvent = event ∧ n.id = i

/-- The packets that were posted are handled in their order, each by its own notifier. -/
structure Inv (s : St C) : Prop where
  table : Table s
  port : ∀ p ∈ s.port, match p.poster with
    | some i => Mine s p.completionKey i
    | none => p.completionKey = 0
  draining : ∀ event retval, s.loop.phase = .draining event retval →
    retval = 0 ∧ ∃ i, s.current = some i ∧ Mine s event i
  current : (∀ event retval, s.loop.phase ≠ .draining event retval) → s.current = none
  order : s.posted = s.handled.map Handled.poster ++
    (s.current.toList ++ s.port.filterMap Packet.poster)
  right : ∀ x ∈ s.handled, x.notifier = some x.poster ∨ x.notifier = none ∧ Gone s x.poster

variable {s t : St C} {l : Label C}

/-! ### Changes of the table -/

lemma change_some {inside : Bool} {o : Op ℕ} {loop : WindowsExecute.St ℕ}
    (h : s.change inside o = some loop) : loop = s.loop.op o := by
  unfold St.change at h
  cases inside with
  | true =>
    simp only [if_true, WindowsExecute.step] at h
    split at h <;> first | exact (Option.some.inj h).symm | cases h
  | false =>
    simp only [Bool.false_eq_true, if_false, WindowsExecute.step] at h
    split at h <;> first | exact (Option.some.inj h).symm | cases h

/-- Every notifier of `t` is one of `s`, or a new one that does not get the key. -/
def Extends (s t : St C) (key : Handle) : Prop :=
  s.next ≤ t.next ∧ ∀ n ∈ t.notifiers,
    (∃ m ∈ s.notifiers, m.id = n.id ∧ m.hEvent = n.hEvent) ∨ n.id = s.next ∧ n.hEvent ≠ key

lemma Mine.extend {key : Handle} {i : ℕ} (h : Mine s key i) (ht : Extends s t key) :
    Mine t key i := by
  obtain ⟨hkey, hi, hn⟩ := h
  refine ⟨hkey, Nat.lt_of_lt_of_le hi ht.1, fun n hmem => ?_⟩
  rcases ht.2 n hmem with ⟨m, hm, hid, hh⟩ | ⟨hid, hh⟩
  · rw [← hid, ← hh]
    exact hn m hm
  · exact iff_of_false (by omega) hh

lemma Gone.extend {key : Handle} {i : ℕ} (h : Gone s i) (ht : Extends s t key) : Gone t i := by
  obtain ⟨hi, hn⟩ := h
  refine ⟨Nat.lt_of_lt_of_le hi ht.1, fun n hmem => ?_⟩
  rcases ht.2 n hmem with ⟨m, hm, hid, -⟩ | ⟨hid, -⟩
  · rw [← hid]
    exact hn m hm
  · omega

/-- A change of the notifiers, with the loop where it was. -/
lemma Inv.change (hi : Inv s) (loop : WindowsExecute.St ℕ) {notifiers : List (Notifier C)}
    (next : ℕ) (hphase : loop.phase = s.loop.phase)
    (htable : Table { s with loop := loop, notifiers := notifiers, next := next })
    (hport : ∀ p ∈ s.port,
      Extends s { s with loop := loop, notifiers := notifiers, next := next } p.completionKey)
    (hdraining : ∀ event retval, s.loop.phase = .draining event retval →
      Extends s { s with loop := loop, notifiers := notifiers, next := next } event)
    (hzero : Extends s { s with loop := loop, notifiers := notifiers, next := next } 0) :
    Inv { s with loop := loop, notifiers := notifiers, next := next } := by
  refine ⟨htable, fun p hp => ?_, fun event retval hd => ?_, fun hno => ?_, hi.order,
    fun x hx => ?_⟩
  · have hmine := hi.port p hp
    split at hmine
    · exact hmine.extend (hport p hp)
    · exact hmine
  · rw [hphase] at hd
    obtain ⟨hzero, i, hcurrent, hmine⟩ := hi.draining event retval hd
    exact ⟨hzero, i, hcurrent, hmine.extend (hdraining event retval hd)⟩
  · rw [hphase] at hno
    exact hi.current hno
  · exact (hi.right x hx).imp_right fun ⟨hnone, hgone⟩ => ⟨hnone, hgone.extend hzero⟩

/-- A notifier with this handle has been constructed. -/
def St.created (s : St C) (hEvent : Handle) : St C := { s with
  loop := s.loop.op (.addEvent hEvent (some s.next))
  notifiers := s.notifiers ++ [⟨s.next, hEvent, none⟩]
  next := s.next + 1 }

lemma mem_created {hEvent : Handle} {n : Notifier C} :
    n ∈ (s.created hEvent).notifiers ↔ n ∈ s.notifiers ∨ n = ⟨s.next, hEvent, none⟩ := by
  simp [St.created]

lemma extends_created {hEvent key : Handle} (hkey : hEvent ≠ key) :
    Extends s (s.created hEvent) key := by
  refine ⟨Nat.le_succ _, fun n hn => ?_⟩
  rcases mem_created.mp hn with hn | rfl
  · exact .inl ⟨n, hn, rfl, rfl⟩
  · exact .inr ⟨rfl, hkey⟩

lemma created_mine {hEvent : Handle} (ht : Table s) (hne : hEvent ≠ 0)
    (hfree : ∀ n ∈ s.notifiers, n.hEvent ≠ hEvent) : Mine (s.created hEvent) hEvent s.next := by
  refine ⟨hne, Nat.lt_succ_self _, fun m hm => ?_⟩
  rcases mem_created.mp hm with hm | rfl
  · exact iff_of_false (Nat.ne_of_lt (ht.ids m hm)) (hfree m hm)
  · exact iff_of_true rfl rfl

lemma table_created {hEvent : Handle} (ht : Table s) (hne : hEvent ≠ 0)
    (hfree : ∀ n ∈ s.notifiers, n.hEvent ≠ hEvent) : Table (s.created hEvent) := by
  refine ⟨fun n hn => ?_, fun n hn => ?_, fun event i => ?_⟩
  · rcases mem_created.mp hn with hn | rfl
    · exact Nat.lt_succ_of_lt (ht.ids n hn)
    · exact Nat.lt_succ_self _
  · rcases mem_created.mp hn with hn | rfl
    · exact (ht.mine n hn).extend (extends_created (Ne.symm (hfree n hn)))
    · exact created_mine ht hne hfree
  · simp only [mem_created]
    simp only [St.created, WindowsExecute.St.op]
    by_cases hevent : event = hEvent
    · subst hevent
      rw [Function.update_self]
      constructor
      · intro heq
        exact ⟨_, .inr rfl, rfl, Option.some.inj heq⟩
      · rintro ⟨n, hn | rfl, hh, hid⟩
        · exact absurd hh (hfree n hn)
        · rw [← hid]
    · rw [Function.update_of_ne hevent, ht.find event i]
      constructor
      · rintro ⟨n, hn, hh, hid⟩
        exact ⟨n, .inl hn, hh, hid⟩
      · rintro ⟨n, hn | rfl, hh, hid⟩
        · exact ⟨n, hn, hh, hid⟩
        · exact absurd hh.symm hevent

lemma create_inv {hEvent : Handle} {inside : Bool} (hi : Inv s)
    (hl : FreshHandle s (.create hEvent inside)) (h : step s (.create hEvent inside) = some t) :
    Inv t := by
  obtain ⟨hne, hport, hdraining⟩ := hl
  simp only [step] at h
  split at h
  · rename_i hfree
    obtain ⟨loop, hloop, rfl⟩ := Option.map_eq_some_iff.mp h
    obtain rfl := change_some hloop
    have hfree : ∀ n ∈ s.notifiers, n.hEvent ≠ hEvent := by simpa using hfree
    refine hi.change _ _ rfl (table_created hi.table hne hfree)
      (fun p hp => extends_created (Ne.symm (hport p hp)))
      (fun event retval hd => extends_created ?_) (extends_created hne)
    rintro rfl
    exact hdraining retval hd
  · cases h

/-- Fewer notifiers. -/
lemma extends_of_subset {loop : WindowsExecute.St ℕ} {notifiers : List (Notifier C)}
    (h : ∀ n ∈ notifiers, ∃ m ∈ s.notifiers, m.id = n.id ∧ m.hEvent = n.hEvent) (key : Handle) :
    Extends s { s with loop := loop, notifiers := notifiers } key :=
  ⟨Nat.le_refl _, fun n hn => .inl (h n hn)⟩

lemma find_mem {i : ℕ} {n : Notifier C} (h : s.find i = some n) : n ∈ s.notifiers ∧ n.id = i :=
  ⟨List.mem_of_find?_eq_some h, by simpa using List.find?_some h⟩

lemma destroy_inv {i : ℕ} {inside : Bool} (hi : Inv s) (h : step s (.destroy i inside) = some t) :
    Inv t := by
  simp only [step] at h
  split at h
  · cases h
  rename_i n hfind
  obtain ⟨hn, rfl⟩ := find_mem hfind
  split at h
  · cases h
  obtain ⟨loop, hloop, rfl⟩ := Option.map_eq_some_iff.mp h
  obtain rfl := change_some hloop
  have hext : ∀ key, Extends s { s with
      loop := s.loop.op (.eraseEvent n.hEvent)
      notifiers := s.notifiers.filter fun m => m.id != n.id } key :=
    extends_of_subset fun m hm => ⟨m, (List.mem_filter.mp hm).1, rfl, rfl⟩
  have hmem : ∀ m, m ∈ s.notifiers.filter (fun m => m.id != n.id) ↔
      m ∈ s.notifiers ∧ m.hEvent ≠ n.hEvent := by
    intro m
    rw [List.mem_filter, bne_iff_ne]
    exact and_congr_right fun hm => not_congr ((hi.table.mine n hn).2.2 m hm)
  refine hi.change _ s.next rfl ⟨fun m hm => ?_, fun m hm => ?_, fun event i => ?_⟩
    (fun p _ => hext _) (fun event _ _ => hext _) (hext 0)
  · exact hi.table.ids m ((List.mem_filter.mp hm).1)
  · exact (hi.table.mine m ((List.mem_filter.mp hm).1)).extend (hext _)
  · simp only [WindowsExecute.St.op, hmem]
    by_cases hevent : event = n.hEvent
    · rw [hevent, Function.update_self]
      refine iff_of_false nofun ?_
      rintro ⟨m, ⟨-, hne⟩, heq, -⟩
      exact hne heq
    · rw [Function.update_of_ne hevent, hi.table.find event i]
      refine exists_congr fun m => ⟨fun ⟨hm, hh, hid⟩ => ?_, fun ⟨⟨hm, _⟩, hh, hid⟩ => ?_⟩
      · exact ⟨⟨hm, hh ▸ hevent⟩, hh, hid⟩
      · exact ⟨hm, hh, hid⟩

lemma set_inv {i : ℕ} {eventHandler : Option C} (hi : Inv s)
    (h : step s (.set i eventHandler) = some t) : Inv t := by
  simp only [step, Option.some.injEq] at h
  subst h
  have hback : ∀ n ∈ s.notifiers.map fun n => if n.id = i then { n with eventHandler } else n,
      ∃ m ∈ s.notifiers, m.id = n.id ∧ m.hEvent = n.hEvent := by
    intro n hn
    obtain ⟨m, hm, rfl⟩ := List.mem_map.mp hn
    refine ⟨m, hm, ?_⟩
    split <;> exact ⟨rfl, rfl⟩
  have hext : ∀ key, Extends s { s with
      notifiers := s.notifiers.map fun n => if n.id = i then { n with eventHandler } else n } key :=
    extends_of_subset hback
  refine hi.change s.loop s.next rfl
    ⟨fun n hn => ?_, fun n hn => ?_, fun event j => ?_⟩ (fun p _ => hext _)
    (fun event _ _ => hext _) (hext 0)
  · obtain ⟨m, hm, hid, -⟩ := hback n hn
    rw [← hid]
    exact hi.table.ids m hm
  · obtain ⟨m, hm, hid, hh⟩ := hback n hn
    rw [← hid, ← hh]
    exact (hi.table.mine m hm).extend (hext _)
  · rw [hi.table.find event j]
    constructor
    · rintro ⟨m, hm, hh, hid⟩
      refine ⟨_, List.mem_map_of_mem hm, ?_⟩
      split <;> exact ⟨hh, hid⟩
    · rintro ⟨n, hn, hh, hid⟩
      obtain ⟨m, hm, hid', hh'⟩ := hback n hn
      exact ⟨m, hm, hh'.trans hh, hid'.trans hid⟩

/-! ### Posting and handling -/

lemma notify_inv {i : ℕ} {posts : Bool} (hi : Inv s) (h : step s (.notify i posts) = some t) :
    Inv t := by
  simp only [step] at h
  split at h
  · cases h
  rename_i n hfind
  obtain ⟨hn, rfl⟩ := find_mem hfind
  split at h
  · cases h
    refine ⟨⟨hi.table.ids, hi.table.mine, hi.table.find⟩, fun p hp => ?_, hi.draining, hi.current,
      ?_, hi.right⟩
    · rcases List.mem_append.mp hp with hp | hp
      · exact hi.port p hp
      · obtain rfl := List.mem_singleton.mp hp
        exact hi.table.mine n hn
    · simp only [hi.order, List.filterMap_append, List.append_assoc]
      rfl
  · cases h
    exact hi

lemma stop_inv (hi : Inv s) (h : step s .stop = some t) : Inv t := by
  cases h
  refine ⟨⟨hi.table.ids, hi.table.mine, hi.table.find⟩, fun p hp => ?_, hi.draining, hi.current,
    ?_, hi.right⟩
  · rcases List.mem_append.mp hp with hp | hp
    · exact hi.port p hp
    · obtain rfl := List.mem_singleton.mp hp
      exact rfl
  · simp only [hi.order, List.filterMap_append]
    simp

/-- The loop goes on with another packet to come or none; the table is as it was. -/
lemma Inv.move (hi : Inv s) {loop : WindowsExecute.St ℕ}
    (hinfos : loop.eventInfos = s.loop.eventInfos)
    (hfrom : ∀ event retval, s.loop.phase ≠ .draining event retval)
    (hto : ∀ event retval, loop.phase ≠ .draining event retval) :
    Inv { s with loop := loop } := by
  refine ⟨⟨hi.table.ids, hi.table.mine, fun event i => ?_⟩, hi.port, fun event retval hd => ?_,
    fun _ => hi.current hfrom, hi.order, hi.right⟩
  · simp only [hinfos]
    exact hi.table.find event i
  · exact absurd hd (hto event retval)

lemma dequeue_inv (hi : Inv s) (h : step s .dequeue = some t) : Inv t := by
  simp only [step] at h
  split at h
  · cases h
  rename_i p port hport
  obtain ⟨loop, hloop, rfl⟩ := Option.map_eq_some_iff.mp h
  simp only [WindowsExecute.step] at hloop
  split at hloop
  · rename_i hwait
    obtain rfl := Option.some.inj hloop
    have hnone : s.current = none := hi.current (by simp [hwait])
    have hp := hi.port p (by simp [hport])
    have hrest : ∀ q ∈ port, q ∈ s.port := fun q hq => by simp [hport, hq]
    have horder := hi.order
    rw [hnone, hport] at horder
    by_cases hkey : p.completionKey = 0
    · have hstop : p.poster = none := by
        cases hposter : p.poster with
        | none => rfl
        | some i =>
          rw [hposter] at hp
          exact absurd hkey hp.1
      simp only [St.taken, hkey, if_true, hstop, WindowsExecute.dequeue, Option.toList_none,
        List.map_nil, List.append_nil]
      refine ⟨⟨hi.table.ids, hi.table.mine, hi.table.find⟩, fun q hq => hi.port q (hrest q hq), ?_,
        fun _ => hnone, ?_, hi.right⟩
      · exact fun _ _ hd => by cases hd
      · simp only [horder, hnone, List.filterMap_cons, hstop]
    · cases hposter : p.poster with
      | none =>
        rw [hposter] at hp
        exact absurd hp hkey
      | some i =>
        rw [hposter] at hp
        simp only [St.taken, if_neg hkey, hposter, WindowsExecute.dequeue]
        refine ⟨⟨hi.table.ids, hi.table.mine, hi.table.find⟩, fun q hq => hi.port q (hrest q hq),
          fun event retval hd => ?_, fun hno => ?_, ?_, hi.right⟩
        · cases hd
          exact ⟨rfl, i, rfl, hp⟩
        · exact absurd rfl (hno p.completionKey 0)
        · simp only [horder, List.filterMap_cons, hposter]
          rfl
  · cases hloop

/-- The packet goes to the notifier that has posted it, or to none if this is gone. -/
lemma process_right {event : Handle} {i : ℕ} (ht : Table s) (hmine : Mine s event i) :
    (s.process event i).poster = i ∧ ((s.process event i).notifier = some i ∨
      (s.process event i).notifier = none ∧ Gone s i) := by
  obtain ⟨-, hlt, hn⟩ := hmine
  unfold St.process
  cases hfind : s.loop.eventInfos event with
  | none =>
    refine ⟨rfl, .inr ⟨rfl, hlt, fun n hmem hid => ?_⟩⟩
    have hsome := (ht.find event i).mpr ⟨n, hmem, (hn n hmem).mp hid, hid⟩
    rw [hfind] at hsome
    cases hsome
  | some j =>
    obtain ⟨n, hmem, hh, rfl⟩ := (ht.find event j).mp hfind
    exact ⟨rfl, .inl (congrArg some ((hn n hmem).mpr hh))⟩

lemma lookup_inv (hi : Inv s) (h : step s .lookup = some t) : Inv t := by
  simp only [step] at h
  split at h
  · rename_i event retval i hphase hcurrent
    obtain ⟨loop, hloop, rfl⟩ := Option.map_eq_some_iff.mp h
    obtain ⟨rfl, j, hj, hmine⟩ := hi.draining event retval hphase
    obtain rfl : i = j := by
      rw [hcurrent] at hj
      exact Option.some.inj hj
    obtain ⟨hposter, hright⟩ := process_right hi.table hmine
    have hloop' : loop.eventInfos = s.loop.eventInfos ∧
        ∀ event retval, loop.phase ≠ .draining event retval := by
      simp only [WindowsExecute.step, hphase] at hloop
      split at hloop <;> cases hloop
      · exact ⟨rfl, by simp⟩
      · exact ⟨rfl, by simp [test]⟩
    refine ⟨⟨hi.table.ids, hi.table.mine, fun event' i' => ?_⟩, hi.port,
      fun event' retval' hd => ?_, fun _ => rfl, ?_, fun x hx => ?_⟩
    · simp only [hloop'.1]
      exact hi.table.find event' i'
    · exact absurd hd (hloop'.2 event' retval')
    · simp only [hi.order, hcurrent, List.map_append, List.append_assoc, List.map_cons, hposter]
      rfl
    · rcases List.mem_append.mp hx with hx | hx
      · exact hi.right x hx
      · obtain rfl := List.mem_singleton.mp hx
        rw [hposter]
        exact hright
  · cases h

lemma step_inv (hi : Inv s) (hl : FreshHandle s l) (h : step s l = some t) : Inv t := by
  cases l with
  | create hEvent inside => exact create_inv hi hl h
  | destroy i inside => exact destroy_inv hi h
  | set i eventHandler => exact set_inv hi h
  | notify i posts => exact notify_inv hi h
  | stop => exact stop_inv hi h
  | dequeue => exact dequeue_inv hi h
  | lookup => exact lookup_inv hi h
  | execute =>
    simp only [step] at h
    split at h
    · rename_i hout
      cases h
      refine hi.move rfl (fun event retval hd => ?_) (by simp [enter])
      rcases hout with hout | hout <;> rw [hout] at hd <;> cases hd
    · cases h
  | wakeUp =>
    obtain ⟨loop, hloop, rfl⟩ := Option.map_eq_some_iff.mp h
    simp only [WindowsExecute.step] at hloop
    split at hloop <;> cases hloop
    exact hi
  | ret =>
    obtain ⟨loop, hloop, rfl⟩ := Option.map_eq_some_iff.mp h
    simp only [WindowsExecute.step] at hloop
    split at hloop
    · rename_i hphase
      cases hloop
      exact hi.move rfl (by simp [hphase]) (by simp [test])
    · rename_i hphase
      cases hloop
      exact hi.move rfl (by simp [hphase]) (by simp)
    · cases hloop
  | throws =>
    obtain ⟨loop, hloop, rfl⟩ := Option.map_eq_some_iff.mp h
    simp only [WindowsExecute.step] at hloop
    split at hloop
    · rename_i hphase
      cases hloop
      exact hi.move rfl (by simp [hphase]) (by simp)
    · rename_i hphase
      cases hloop
      exact hi.move rfl (by simp [hphase]) (by simp)
    · cases hloop

lemma start_inv : Inv (start (C := C)) :=
  ⟨⟨nofun, nofun, fun event i => ⟨nofun, fun ⟨_, h, _⟩ => by cases h⟩⟩, nofun, nofun, fun _ => rfl,
    rfl, nofun⟩

/-- The calls of `process` of a notifier that is there are the answers to its packets. -/
lemma calls_eq (hi : Inv s) {n : Notifier C} (hn : n ∈ s.notifiers) :
    s.handled.countP (fun x => x.notifier == some n.id) =
      (s.handled.map Handled.poster).count n.id := by
  rw [List.count_eq_countP, List.countP_map]
  refine List.countP_congr fun x hx => ?_
  simp only [beq_iff_eq, Function.comp_apply]
  rcases hi.right x hx with hown | ⟨hnone, -, hgone⟩
  · rw [hown, Option.some.injEq]
  · rw [hnone]
    exact iff_of_false nofun fun heq => hgone n hn heq.symm

/-- **Every notifier gets its own notifications.** In every run in which no handle is given out
again while a packet for it is underway, through any number of calls of `stop` and `execute`: the
packets are handled in the order of the notifications; `process` is called for the notifier that has
posted the packet, or not at all if this was destroyed; and a notifier for which nothing is underway
has been called once for each notification. -/
theorem own_notifications {ls : List (Label C)} (h : run step start ls = some s)
    (hok : Meets step FreshHandle start ls) :
    s.posted = s.handled.map Handled.poster ++
      (s.current.toList ++ s.port.filterMap Packet.poster) ∧
    (∀ x ∈ s.handled, x.notifier = some x.poster ∨
      x.notifier = none ∧ ∀ n ∈ s.notifiers, n.id ≠ x.poster) ∧
    ∀ n ∈ s.notifiers, n.id ∉ s.current.toList ++ s.port.filterMap Packet.poster →
      s.handled.countP (fun x => x.notifier == some n.id) = s.posted.count n.id := by
  have hi : Inv s :=
    run_inv_of_meets (fun _ _ _ hu hl ht => step_inv hu hl ht) start_inv hok h
  refine ⟨hi.order, fun x hx => (hi.right x hx).imp_right fun ⟨hnone, hgone⟩ => ⟨hnone, hgone.2⟩,
    fun n hn hnot => ?_⟩
  rw [calls_eq hi hn, hi.order, List.count_append, List.count_eq_zero.mpr hnot, Nat.add_zero]

/-- A notification in front of a `stop`, another one behind it, and one of a notifier that is
destroyed by the first callback. -/
def stopped : List (Label ℕ) :=
  [.create 4 false, .set 0 (some 7), .create 8 false, .notify 0 true, .notify 1 true, .stop,
    .notify 0 true, .dequeue, .lookup, .destroy 1 true, .ret, .dequeue, .lookup, .dequeue, .execute,
    .dequeue, .lookup, .ret]

theorem own_notifications_stopped : ∃ s, run step start stopped = some s ∧
    ∀ n ∈ s.notifiers, n.id ∉ s.current.toList ++ s.port.filterMap Packet.poster →
      s.handled.countP (fun x => x.notifier == some n.id) = s.posted.count n.id := by
  have hok : Meets step FreshHandle start stopped := by
    refine meets_step ⟨by decide, nofun, nofun⟩ rfl <| meets_step trivial rfl <|
      meets_step ⟨by decide, nofun, nofun⟩ rfl <| meets_step trivial rfl <|
      meets_step trivial rfl <| meets_step trivial rfl <| meets_step trivial rfl <|
      meets_step trivial rfl <| meets_step trivial rfl <| meets_step trivial rfl <|
      meets_step trivial rfl <| meets_step trivial rfl <| meets_step trivial rfl <|
      meets_step trivial rfl <| meets_step trivial rfl <| meets_step trivial rfl <|
      meets_step trivial rfl <| meets_step trivial rfl trivial
  exact ⟨_, rfl, (own_notifications rfl hok).2.2⟩

end Hbm.WindowsNotifier
