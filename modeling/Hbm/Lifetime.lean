import Hbm.Callbacks

/-!
The registrations and descriptors of one `SocketNonblocking` over its whole life.

`connect` registers the callbacks for the new descriptor before it knows whether the connection
works, and none of its failing exits takes anything back. `disconnect` and the destructor do, for
the number in `m_event`. A `connect` while there is a number puts another one in its place.
-/

namespace Hbm.Lifetime

open Hbm.Epoll Hbm.Handlers Hbm.Descriptors Hbm.Closing Hbm.Run Hbm.Callbacks

/-- A handler in the event loop: bound to the socket, or of the rest of the process. Bound to an
empty callback it is not empty. -/
inductive Callback (D E : Type*)
  | bound (dataCb : Option D)
  | other (eh : E)

/-- Where a call of the socket stands. The drains are where a callback runs. -/
inductive At
  | connectAdd (d : Dir)
  | connectDrain (d : Dir)
  | setSocketOptions
  | connect
  | waitForWritable
  | soError
  | drain
  | close (destroys : Bool)
  | erase (d : Dir) (destroys : Bool)
  | reset (destroys : Bool)

/-- `held` only records what has happened: the descriptors that the socket has opened, or was
made from, and not closed. `calls` are the calls in progress, the innermost first. -/
structure St (D E : Type*) where
  sock : Socket D
  lo : EventLoop (Callback D E) Files
  held : Fd → Bool
  calls : List At
  alive : Bool

/-- How `connect` begins: no address, no socket, or a new descriptor. -/
inductive Opening
  | unresolved | noSocket | opened
  deriving DecidableEq

inductive Call (D : Type*)
  | setDataCb (dataCb : Option D) (a : Addr)
  | clearDataCb
  | setOutDataCb (dataCb : Option D) (a : Addr)
  | clearOutDataCb
  | disconnect
  | connect (o : Opening)

inductive Reply
  | ok | inProgress | error
  deriving DecidableEq

inductive Label (D E : Type*)
  | call (c : Call D)
  | destroy
  /-- the innermost call goes on; `a` is where a new entry would be allocated -/
  | next (r : Reply) (a : Addr)
  /-- the callback throws, and the innermost call ends with it -/
  | throws
  /-- the rest of the process -/
  | otherOpen
  | otherAdd (d : Dir) (fd : Fd) (eh : E) (a : Addr)
  | otherErase (d : Dir) (fd : Fd)
  | otherClose (fd : Fd)

variable {D E : Type*}

def member (sock : Socket D) : Dir → Option D
  | .inp => sock.inDataHandler
  | .out => sock.outDataHandler

/-- `addEvent` or `addOutEvent` with the bound callback. A registration is followed by the
drain. -/
def addBound (s : St D E) (d : Dir) (dataCb : Option D) (a : Addr) (registered failed : List At) :
    Option (St D E) :=
  if ha : s.lo.eventInfos.mem a = none then
    let r := addHandler d s.lo s.sock.event (some (.bound dataCb)) a ha
    some { s with lo := r.1, calls := if r.2 = 0 then registered else failed }
  else none

/-- `disconnect`, or the destructor. -/
def disconnect (s : St D E) (destroys : Bool) : St D E :=
  { s with calls := (if s.sock.event ≠ -1 then .close destroys else .reset destroys) :: s.calls }

def call (s : St D E) : Call D → Option (St D E)
  | .setDataCb cb a =>
    addBound { s with sock := { s.sock with inDataHandler := cb } } .inp cb a
      (.drain :: s.calls) s.calls
  | .clearDataCb =>
    some { s with
      sock := { s.sock with inDataHandler := none }
      lo := (eraseEvent s.lo s.sock.event).1 }
  | .setOutDataCb cb a =>
    addBound { s with sock := { s.sock with outDataHandler := cb } } .out cb a
      (.drain :: s.calls) s.calls
  | .clearOutDataCb =>
    some { s with
      sock := { s.sock with inDataHandler := none } -- not `outDataHandler`
      lo := (eraseOutEvent s.lo s.sock.event).1 }
  | .disconnect => some (disconnect s false)
  | .connect .unresolved => some s
  | .connect .noSocket => some { s with sock := { s.sock with event := -1 } }
  | .connect .opened =>
    let k := s.lo.kernel.socket
    some { s with
      sock := { s.sock with event := k.2 }
      lo := { s.lo with kernel := k.1 }
      held := Function.update s.held k.2 true
      calls := .connectAdd .inp :: s.calls }

/-- What follows in `connect` after a callback was registered and drained. -/
def afterAdd : Dir → At
  | .inp => .connectAdd .out
  | .out => .setSocketOptions

/-- The next step of a call; `calls` are the ones around it. -/
def goOn (s : St D E) (calls : List At) (r : Reply) (a : Addr) : At → Option (St D E)
  | .connectAdd d =>
    match member s.sock d with
    | none => some { s with calls := afterAdd d :: calls }
    | some cb => addBound s d (some cb) a (.connectDrain d :: calls) (afterAdd d :: calls)
  | .connectDrain d => some { s with calls := afterAdd d :: calls }
  | .setSocketOptions => some { s with calls := if r = .ok then .connect :: calls else calls }
  | .connect =>
    some { s with calls := if r = .inProgress then .waitForWritable :: calls else calls }
  | .waitForWritable => some { s with calls := if r = .ok then .soError :: calls else calls }
  | .soError => some { s with calls }
  | .drain => some { s with calls }
  | .close destroys =>
    some { s with
      lo := { s.lo with kernel := s.lo.kernel.close s.sock.event }
      held := Function.update s.held s.sock.event false
      calls := .erase .inp destroys :: calls }
  | .erase .inp destroys =>
    some { s with
      lo := (eraseEvent s.lo s.sock.event).1, calls := .erase .out destroys :: calls }
  | .erase .out destroys =>
    some { s with
      lo := (eraseOutEvent s.lo s.sock.event).1, calls := .reset destroys :: calls }
  | .reset destroys =>
    some { s with
      sock := { s.sock with event := -1 }, calls, alive := s.alive && !destroys }

def At.drains : At → Bool
  | .connectDrain _ | .drain => true
  | _ => false

/-- The socket can be called: between its calls, or from a callback that a call of it runs. -/
def callable (s : St D E) : Bool :=
  s.alive && s.calls.head?.all At.drains

/-- The rest of the process leaves the descriptors of the socket alone. -/
def step (s : St D E) : Label D E → Option (St D E)
  | .call c => if callable s then call s c else none
  | .destroy => if s.alive && s.calls.isEmpty then some (disconnect s true) else none
  | .next r a =>
    match s.calls with
    | [] => none
    | p :: calls => goOn s calls r a p
  | .throws =>
    match s.calls with
    | [] => none
    | p :: calls => if p.drains then some { s with calls } else none
  | .otherOpen => some { s with lo := { s.lo with kernel := s.lo.kernel.socket.1 } }
  | .otherAdd d fd eh a =>
    if s.held fd then none
    else (register d s.lo fd (some (.other eh)) a).map fun l => { s with lo := l }
  | .otherErase d fd =>
    if s.held fd then none else some { s with lo := (eraseHandler d s.lo fd).1 }
  | .otherClose fd =>
    if s.held fd then none
    else some { s with lo := { s.lo with kernel := s.lo.kernel.close fd } }

/-- A new socket, unconnected or made from an open descriptor. -/
structure Starts (s : St D E) : Prop where
  calls : s.calls = []
  alive : s.alive = true
  unbound : ∀ fd d cb, handler s.lo.eventInfos fd d ≠ some (.bound cb)
  event : s.sock.event = -1 ∧ (∀ fd, s.held fd = false) ∨
    s.lo.kernel.isOpen s.sock.event = true ∧ ∀ fd, s.held fd = true ↔ fd = s.sock.event

/-- No entry for another number than `m_event`, no other descriptor, and nothing after the
destruction. -/
structure Kept (s : St D E) : Prop where
  keys : ∀ fd d cb, handler s.lo.eventInfos fd d = some (.bound cb) → fd = s.sock.event
  held : ∀ fd, s.held fd = true → fd = s.sock.event
  destroyed : s.alive = false →
    (∀ fd d cb, handler s.lo.eventInfos fd d ≠ some (.bound cb)) ∧ ∀ fd, s.held fd = false

/-- `connect` gets as far as `::socket` only when `m_event` is -1. -/
def ConnectsFree (s : St D E) (l : Label D E) : Prop :=
  ∀ o, l = .call (.connect o) → o ≠ .unresolved → s.sock.event = -1

/-! ### The event loop -/

/-- What the socket has in the event loop and in the kernel belongs to `event`. -/
structure Own (event : Fd) (lo : EventLoop (Callback D E) Files) (held : Fd → Bool) : Prop where
  keys : ∀ fd d cb, handler lo.eventInfos fd d = some (.bound cb) → fd = event ∧ fd ≠ -1
  held : ∀ fd, held fd = true → fd = event ∧ lo.kernel.isOpen fd = true

variable {event fd : Fd} {lo : EventLoop (Callback D E) Files} {held : Fd → Bool} {d : Dir}
  {a : Addr} {ha : lo.eventInfos.mem a = none}

/-- The socket has no descriptor. -/
def Released (held : Fd → Bool) : Prop := ∀ fd, held fd = false

/-- The socket has no entry for a direction. -/
def Silent (lo : EventLoop (Callback D E) Files) (d : Dir) : Prop :=
  ∀ fd cb, handler lo.eventInfos fd d ≠ some (.bound cb)

/-- Without a number the socket has nothing. -/
lemma Own.of_neg (hs : Own (-1) lo held) : (∀ d, Silent lo d) ∧ Released held := by
  refine ⟨fun d fd cb h => (hs.keys fd d cb h).2 (hs.keys fd d cb h).1, fun fd => ?_⟩
  rw [Bool.eq_false_iff]
  intro h
  obtain ⟨rfl, hopen⟩ := hs.held fd h
  rw [not_isOpen_neg] at hopen
  cases hopen

lemma Own.of_nothing (hkeys : ∀ d, Silent lo d) (hheld : Released held) : Own event lo held :=
  ⟨fun fd d cb h => absurd h (hkeys d fd cb), fun fd h => by rw [hheld] at h; cases h⟩

lemma Own.add (hs : Own event lo held) (cb : Option D) :
    Own event (addHandler d lo event (some (.bound cb)) a ha).1 held := by
  refine ⟨fun k d' cb' h => ?_, fun k h => ?_⟩
  · rcases handler_of_addHandler h with ⟨rfl, hne, -⟩ | hold
    · exact ⟨rfl, hne⟩
    · exact hs.keys k d' cb' hold
  · rw [isOpen_addHandler]
    exact hs.held k h

lemma Own.otherAdd (hs : Own event lo held) (eh : E) :
    Own event (addHandler d lo fd (some (.other eh)) a ha).1 held := by
  refine ⟨fun k d' cb h => ?_, fun k h => ?_⟩
  · rcases handler_of_addHandler h with ⟨-, -, hother⟩ | hold
    · cases hother
    · exact hs.keys k d' cb hold
  · rw [isOpen_addHandler]
    exact hs.held k h

lemma Own.erase (hs : Own event lo held) : Own event (eraseHandler d lo fd).1 held := by
  refine ⟨fun k d' cb h => hs.keys k d' cb (handler_of_eraseHandler h).1, fun k h => ?_⟩
  rw [isOpen_eraseHandler]
  exact hs.held k h

/-- The socket closes its descriptor. -/
lemma Own.close (hs : Own event lo held) :
    Released (Function.update held event false) ∧
      Own event { lo with kernel := lo.kernel.close event } (Function.update held event false) := by
  have hreleased : Released (Function.update held event false) := by
    intro k
    by_cases hk : k = event
    · rw [hk, Function.update_self]
    · rw [Function.update_of_ne hk, Bool.eq_false_iff]
      exact fun h => hk (hs.held k h).1
  exact ⟨hreleased, hs.keys, fun k h => by rw [hreleased k] at h; cases h⟩

lemma Own.otherClose (hs : Own event lo held) (hfd : held fd = false) :
    Own event { lo with kernel := lo.kernel.close fd } held := by
  refine ⟨hs.keys, fun k h => ⟨(hs.held k h).1, close_isOpen.mpr ⟨?_, (hs.held k h).2⟩⟩⟩
  rintro rfl
  rw [hfd] at h
  cases h

lemma Own.otherOpen (hs : Own event lo held) :
    Own event { lo with kernel := lo.kernel.socket.1 } held :=
  ⟨hs.keys, fun k h => ⟨(hs.held k h).1, socket_isOpen.mpr (.inr (hs.held k h).2)⟩⟩

/-- A socket without a number opens a descriptor. -/
lemma Own.socket (hs : Own (-1) lo held) :
    Own lo.kernel.socket.2 { lo with kernel := lo.kernel.socket.1 }
      (Function.update held lo.kernel.socket.2 true) := by
  obtain ⟨hsilent, hreleased⟩ := hs.of_neg
  refine ⟨fun k d cb h => absurd h (hsilent d k cb), fun k h => ?_⟩
  by_cases hk : k = lo.kernel.socket.2
  · exact ⟨hk, socket_isOpen.mpr (.inl hk)⟩
  · rw [Function.update_of_ne hk, hreleased] at h
    cases h

lemma silent_erase (hs : Own event lo held) : Silent (eraseHandler d lo event).1 d := by
  intro k cb h
  obtain ⟨hold, hne⟩ := handler_of_eraseHandler h
  exact hne ⟨(hs.keys k d cb hold).1, rfl⟩

lemma Silent.erase {d' : Dir} (h : Silent lo d) : Silent (eraseHandler d' lo fd).1 d :=
  fun k cb hk => h k cb (handler_of_eraseHandler hk).1

lemma Silent.otherAdd {d' : Dir} {eh : E} (h : Silent lo d) :
    Silent (addHandler d' lo fd (some (.other eh)) a ha).1 d := by
  intro k cb hk
  rcases handler_of_addHandler hk with ⟨-, -, hother⟩ | hold
  · cases hother
  · exact h k cb hold

/-! ### The calls in progress -/

/-- The number is the one of a descriptor that the socket has. -/
def Settled (s : St D E) : Prop := s.sock.event = -1 ∨ s.held s.sock.event = true

/-- What is done already when a call stands somewhere. -/
def Phase (s : St D E) : Option At → Prop
  | some (.close _) => s.sock.event ≠ -1
  | some (.erase .inp _) => Released s.held
  | some (.erase .out _) => Released s.held ∧ Silent s.lo .inp
  | some (.reset _) => Released s.held ∧ ∀ d, Silent s.lo d
  | _ => Settled s

def At.destroys : At → Bool
  | .close b | .erase _ b | .reset b => b
  | _ => false

/-- A call in progress around another one is in a drain, and the destructor is alone. -/
def Nested : List At → Prop
  | [] => True
  | p :: calls => (∀ q ∈ calls, q.drains = true) ∧ (p.destroys = true → calls = [])

structure Inv (s : St D E) : Prop where
  own : Own s.sock.event s.lo s.held
  phase : Phase s s.calls.head?
  nested : Nested s.calls
  destroyed : s.alive = false → s.sock.event = -1 ∧ s.calls = []

variable {s t : St D E} {p q : At} {calls : List At}

lemma phase_of_drains (h : p.drains = true) : Phase s (some p) ↔ Settled s := by
  cases p with
  | connectDrain | drain => rfl
  | _ => cases h

lemma Nested.tail (h : Nested (p :: calls)) : Nested calls := by
  cases calls with
  | nil => trivial
  | cons q calls =>
    refine ⟨fun r hr => h.1 r (List.mem_cons_of_mem _ hr), fun hq => ?_⟩
    have hdrains := h.1 q List.mem_cons_self
    cases q with
    | connectDrain | drain => cases hq
    | _ => cases hdrains

/-- A call goes on. -/
lemma Nested.next (h : Nested (p :: calls)) (hd : q.destroys = true → p.destroys = true) :
    Nested (q :: calls) :=
  ⟨h.1, fun hq => h.2 (hd hq)⟩

/-- When a call returns, a drain goes on, or the program. -/
lemma phase_return (h : ∀ q ∈ calls, q.drains = true) : Phase s calls.head? ↔ Settled s := by
  cases calls with
  | nil => rfl
  | cons q calls => exact phase_of_drains (h q List.mem_cons_self)

/-- A socket that can be called is settled, and all its calls are in drains. -/
lemma Inv.of_callable (hs : Inv s) (h : callable s = true) :
    Settled s ∧ (∀ q ∈ s.calls, q.drains = true) ∧ s.alive = true := by
  obtain ⟨halive, hdrains⟩ := Bool.and_eq_true_iff.mp h
  have hphase := hs.phase
  have hnested := hs.nested
  cases hc : s.calls with
  | nil =>
    rw [hc] at hphase
    exact ⟨hphase, by simp, halive⟩
  | cons p calls =>
    rw [hc] at hphase hnested hdrains
    have hp : p.drains = true := by simpa using hdrains
    refine ⟨(phase_of_drains hp).mp hphase, fun q hq => ?_, halive⟩
    rcases List.mem_cons.mp hq with rfl | hq
    · exact hp
    · exact hnested.1 q hq

lemma Inv.kept (hs : Inv s) : Kept s where
  keys fd d cb h := (hs.own.keys fd d cb h).1
  held fd h := (hs.own.held fd h).1
  destroyed h := by
    obtain ⟨hsilent, hreleased⟩ := ((hs.destroyed h).1 ▸ hs.own).of_neg
    exact ⟨fun fd d cb => hsilent d fd cb, hreleased⟩

lemma inv_start (hs : Starts s) : Inv s := by
  have hkeys : ∀ d, Silent s.lo d := fun d fd cb => hs.unbound fd d cb
  refine ⟨?_, ?_, ?_, fun h => ?_⟩
  · refine ⟨fun fd d cb h => absurd h (hkeys d fd cb), fun fd h => ?_⟩
    rcases hs.event with ⟨-, hnone⟩ | ⟨hopen, honly⟩
    · rw [hnone] at h
      cases h
    · obtain rfl := (honly fd).mp h
      exact ⟨rfl, hopen⟩
  · rw [hs.calls]
    exact hs.event.imp And.left fun h => (h.2 _).mpr rfl
  · rw [hs.calls]
    trivial
  · rw [hs.alive] at h
    cases h

/-! ### The steps -/

/-- The bound callback is registered or refused. -/
lemma inv_addBound {d : Dir} {cb : Option D} {a : Addr} {registered failed : List At}
    (hs : Own s.sock.event s.lo s.held) (hsettled : Settled s) (halive : s.alive = true)
    (hn : ∀ calls, calls = registered ∨ calls = failed →
      Nested calls ∧ (∀ u : St D E, Settled u → Phase u calls.head?))
    (h : addBound s d cb a registered failed = some t) : Inv t := by
  unfold addBound at h
  split at h <;> cases h
  refine ⟨hs.add cb, ?_, ?_, fun hdead => ?_⟩
  · split
    · exact (hn _ (.inl rfl)).2 _ hsettled
    · exact (hn _ (.inr rfl)).2 _ hsettled
  · split
    · exact (hn _ (.inl rfl)).1
    · exact (hn _ (.inr rfl)).1
  · rw [show s.alive = false from hdead] at halive
    cases halive

/-- A step that only changes the calls in progress. -/
lemma Inv.of_calls (hs : Inv s) (halive : s.alive = true) (hphase : Phase s calls.head?)
    (hn : Nested calls) : Inv { s with calls } :=
  ⟨hs.own, hphase, hn, fun hdead => by
    rw [show s.alive = false from hdead] at halive
    cases halive⟩

lemma Inv.alive (hs : Inv s) (hc : s.calls = p :: calls) : s.alive = true := by
  rw [← Bool.not_eq_false]
  intro hdead
  rw [(hs.destroyed hdead).2] at hc
  cases hc

lemma Inv.of_return (hs : Inv s) (hc : s.calls = p :: calls) (hsettled : Settled s) :
    Inv { s with calls } := by
  have hnested : Nested (p :: calls) := hc ▸ hs.nested
  exact hs.of_calls (hs.alive hc) ((phase_return hnested.1).mpr hsettled) hnested.tail

lemma inv_goOn {r : Reply} {a : Addr} (hs : Inv s) (hc : s.calls = p :: calls)
    (h : goOn s calls r a p = some t) : Inv t := by
  have halive : s.alive = true := hs.alive hc
  have hphase : Phase s (some p) := by simpa [hc] using hs.phase
  have hnested : Nested (p :: calls) := hc ▸ hs.nested
  cases p with
  | connectAdd d =>
    have hafter : Nested (afterAdd d :: calls) := hnested.next (by cases d <;> exact nofun)
    have hsettled : ∀ u : St D E, Settled u → Phase u (some (afterAdd d)) :=
      fun u hu => by cases d <;> exact hu
    simp only [goOn] at h
    split at h
    · cases h
      exact hs.of_calls halive (hsettled s hphase) hafter
    · refine inv_addBound hs.own hphase halive ?_ h
      rintro _ (rfl | rfl)
      · exact ⟨hnested.next nofun, fun u hu => hu⟩
      · exact ⟨hafter, hsettled⟩
  | connectDrain d =>
    cases h
    refine hs.of_calls halive ?_ (hnested.next (by cases d <;> exact nofun))
    cases d <;> exact hphase
  | setSocketOptions | connect | waitForWritable =>
    cases h
    split
    · exact hs.of_calls halive hphase (hnested.next nofun)
    · exact hs.of_return hc hphase
  | soError | drain =>
    cases h
    exact hs.of_return hc hphase
  | close b =>
    cases h
    obtain ⟨hreleased, hown⟩ := hs.own.close
    exact ⟨hown, hreleased, hnested.next id, fun hdead => by simp [halive] at hdead⟩
  | erase d b =>
    cases d with
    | inp =>
      cases h
      exact ⟨hs.own.erase, ⟨hphase, silent_erase hs.own⟩, hnested.next id,
        fun hdead => by simp [halive] at hdead⟩
    | out =>
      cases h
      refine ⟨hs.own.erase, ⟨hphase.1, fun d => ?_⟩, hnested.next id,
        fun hdead => by simp [halive] at hdead⟩
      cases d with
      | inp => exact hphase.2.erase
      | out => exact silent_erase hs.own
  | reset b =>
    cases h
    refine ⟨.of_nothing hphase.2 hphase.1, (phase_return hnested.1).mpr (.inl rfl), hnested.tail,
      fun hdead => ?_⟩
    refine ⟨rfl, hnested.2 ?_⟩
    simpa [halive, At.destroys] using hdead

lemma inv_disconnect {b : Bool} (hs : Inv s) (halive : s.alive = true)
    (hdrains : ∀ q ∈ s.calls, q.drains = true) (hb : b = true → s.calls = []) :
    Inv (disconnect s b) := by
  unfold disconnect
  split
  · next hne => exact hs.of_calls halive hne ⟨hdrains, hb⟩
  · next hneg =>
    have heq : s.sock.event = -1 := by simpa using hneg
    obtain ⟨hsilent, hreleased⟩ := (heq ▸ hs.own).of_neg
    exact hs.of_calls halive ⟨hreleased, hsilent⟩ ⟨hdrains, hb⟩

lemma inv_call {c : Call D} (hs : Inv s) (hcall : callable s = true)
    (hok : ConnectsFree s (.call c)) (h : call s c = some t) : Inv t := by
  obtain ⟨hsettled, hdrains, halive⟩ := hs.of_callable hcall
  have hreturn : ∀ u : St D E, Settled u → Phase u s.calls.head? :=
    fun u hu => (phase_return hdrains).mpr hu
  have hset : ∀ calls, calls = .drain :: s.calls ∨ calls = s.calls →
      Nested calls ∧ ∀ u : St D E, Settled u → Phase u calls.head? := by
    rintro _ (rfl | rfl)
    · exact ⟨⟨hdrains, nofun⟩, fun u hu => hu⟩
    · exact ⟨hs.nested, hreturn⟩
  have hdead : ¬ s.alive = false := by simp [halive]
  cases c with
  | setDataCb cb a =>
    exact inv_addBound (s := { s with sock := { s.sock with inDataHandler := cb } }) hs.own
      hsettled halive hset h
  | setOutDataCb cb a =>
    exact inv_addBound (s := { s with sock := { s.sock with outDataHandler := cb } }) hs.own
      hsettled halive hset h
  | clearDataCb | clearOutDataCb =>
    cases h
    exact ⟨hs.own.erase, hreturn _ hsettled, hs.nested, fun h => absurd h hdead⟩
  | disconnect =>
    cases h
    exact inv_disconnect hs halive hdrains nofun
  | connect o =>
    cases o with
    | unresolved =>
      cases h
      exact hs
    | noSocket =>
      have heq : s.sock.event = -1 := hok .noSocket rfl nofun
      cases h
      exact ⟨heq ▸ hs.own, hreturn _ (.inl rfl), hs.nested, fun h => absurd h hdead⟩
    | opened =>
      have heq : s.sock.event = -1 := hok .opened rfl nofun
      cases h
      exact ⟨(heq ▸ hs.own).socket, .inr (Function.update_self ..), ⟨hdrains, nofun⟩,
        fun h => absurd h hdead⟩

/-- The rest of the process binds nothing to the socket. -/
lemma Inv.of_other (hs : Inv s) (hown : Own s.sock.event lo s.held)
    (hsilent : ∀ d, Silent s.lo d → Silent lo d) : Inv { s with lo } := by
  refine ⟨hown, ?_, hs.nested, hs.destroyed⟩
  have hphase := hs.phase
  cases hc : s.calls.head? with
  | none =>
    rw [hc] at hphase
    exact hphase
  | some p =>
    rw [hc] at hphase
    cases p with
    | erase d b =>
      cases d with
      | inp => exact hphase
      | out => exact ⟨hphase.1, hsilent .inp hphase.2⟩
    | reset b => exact ⟨hphase.1, fun d => hsilent d (hphase.2 d)⟩
    | _ => exact hphase

lemma inv_step {l : Label D E} (hs : Inv s) (hok : ConnectsFree s l) (h : step s l = some t) :
    Inv t := by
  cases l with
  | call c =>
    simp only [step] at h
    split at h
    · next hcall => exact inv_call hs hcall hok h
    · cases h
  | destroy =>
    simp only [step] at h
    split at h <;> cases h
    next hidle =>
    obtain ⟨halive, hempty⟩ := Bool.and_eq_true_iff.mp hidle
    have hnil : s.calls = [] := by simpa using hempty
    exact inv_disconnect hs halive (by simp [hnil]) fun _ => hnil
  | next r a =>
    simp only [step] at h
    split at h
    · cases h
    · next hc => exact inv_goOn hs hc h
  | throws =>
    simp only [step] at h
    split at h
    · cases h
    · next p calls hc =>
      split at h <;> cases h
      next hp =>
      have hphase : Phase s (some p) := by simpa [hc] using hs.phase
      exact hs.of_return hc ((phase_of_drains hp).mp hphase)
  | otherOpen =>
    cases h
    exact hs.of_other hs.own.otherOpen fun _ => id
  | otherAdd d fd eh a =>
    simp only [step] at h
    split at h
    · cases h
    · obtain ⟨lo, hlo, rfl⟩ := Option.map_eq_some_iff.mp h
      obtain ⟨ha, rfl⟩ := register_some hlo
      exact hs.of_other (hs.own.otherAdd eh) fun _ => Silent.otherAdd
  | otherErase d fd =>
    simp only [step] at h
    split at h <;> cases h
    exact hs.of_other hs.own.erase fun _ => Silent.erase
  | otherClose fd =>
    simp only [step] at h
    split at h <;> cases h
    next hfd => exact hs.of_other (hs.own.otherClose (by simpa using hfd)) fun _ => id

/-- A `connect` over a number loses the descriptor. -/
lemma connectsFree_of_kept {l : Label D E} (hs : Inv s) (h : step s l = some t) (ht : Kept t) :
    ConnectsFree s l := by
  rintro o rfl ho
  simp only [step] at h
  split at h
  · next hcall =>
    refine (hs.of_callable hcall).1.resolve_right fun hheld => ?_
    obtain ⟨-, hopen⟩ := hs.own.held _ hheld
    cases o with
    | unresolved => exact ho rfl
    | noSocket =>
      cases h
      rw [show s.sock.event = -1 from ht.held _ hheld, not_isOpen_neg] at hopen
      cases hopen
    | opened =>
      cases h
      have hne : s.sock.event ≠ s.lo.kernel.socket.2 := by
        intro heq
        rw [heq, socket_free] at hopen
        cases hopen
      exact hne (ht.held _ ((Function.update_of_ne hne _ _).trans hheld))
  · cases h

/-- **No registration outlives its socket.** In every state of a run, the entries bound to the
socket have the number in `m_event`, its descriptors are that number, and nothing of it is there
after the destruction, if and only if no `connect` of the run opens a socket while there is a
number in `m_event`. -/
theorem nothing_outlives {ls : List (Label D E)} (hs : Starts s) (h : run step s ls = some t) :
    Always step Kept s ls ↔ Meets step ConnectsFree s ls :=
  always_iff_meets (fun _ _ _ hi hok h => inv_step hi hok h) (fun _ => Inv.kept)
    (fun _ _ _ hi h hk => connectsFree_of_kept hi h hk) (inv_start hs) h

/-- A new socket on a new event loop with stop descriptor 0. -/
def unconnected : St ℕ ℕ where
  sock := ⟨-1, none, none⟩
  lo := {
    events := fun _ => ⟨0, none⟩
    eventCount := 0
    eventInfos := .empty
    kernel := (Files.none.socket.1.ctl .ADD 0 (some ⟨EPOLLIN ||| EPOLLET, none⟩)).1 }
  held := fun _ => false
  calls := []
  alive := true

lemma starts_unconnected : Starts unconnected :=
  ⟨rfl, rfl, nofun, .inl ⟨rfl, fun _ => rfl⟩⟩

/-- `connect` with an input callback, up to the answer of `::connect`. -/
def connecting (r : Reply) : List (Label ℕ ℕ) :=
  [.call (.connect .opened), .next .ok 1, .next .ok 2, .next .ok 2, .next .ok 2, .next r 2]

/-- A failed `connect`, `disconnect`, a successful `connect` and the destructor. -/
def disconnected : List (Label ℕ ℕ) :=
  .call (.setDataCb (some 10) 1) :: connecting .error ++
    [.call .disconnect, .next .ok 2, .next .ok 2, .next .ok 2, .next .ok 2] ++ connecting .ok ++
    [.destroy, .next .ok 2, .next .ok 2, .next .ok 2, .next .ok 2]

theorem nothing_outlives_disconnected :
    Always step Kept unconnected disconnected ↔
      Meets step ConnectsFree unconnected disconnected := by
  have hrun : run step unconnected disconnected = some _ := rfl
  exact nothing_outlives starts_unconnected hrun

/-- `connect` fails at `::connect` and is called again. -/
def connectedAgain : List (Label ℕ ℕ) :=
  .call (.setDataCb (some 10) 1) :: connecting .error ++ [.call (.connect .opened)]

/-- After the second `connect` the first descriptor is open, with the callback registered on it,
and the destructor leaves both. -/
theorem outlives : ∃ t u, run step unconnected connectedAgain = some t ∧ ¬ Kept t ∧
    run step unconnected (connectedAgain ++ [.next .ok 2, .next .ok 3, .next .ok 3, .next .error 3,
      .destroy, .next .ok 3, .next .ok 3, .next .ok 3, .next .ok 3]) = some u ∧
    u.alive = false ∧ u.held 1 = true ∧
    handler u.lo.eventInfos 1 .inp = some (.bound (some 10)) := by
  refine ⟨_, _, rfl, fun h => ?_, rfl, rfl, rfl, rfl⟩
  have heq := h.held 1 rfl
  cases heq

end Hbm.Lifetime
