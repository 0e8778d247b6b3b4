import Hbm.Callbacks

/-!
Who a descriptor belongs to: TCP servers, netlink objects and all other users of descriptors in
one process.

An object knows its descriptor only as the number in its member. `stop` of a server and of a
netlink object erases the registration and closes the number, and leaves the member as it is.
A second `stop`, and the destructor is one, closes and erases whatever has this number by then.
`SocketNonblocking::disconnect` puts -1 there.
-/

namespace Hbm.Owners

open Hbm.Epoll Hbm.Handlers Hbm.Descriptors Hbm.Closing Hbm.Run Hbm.Callbacks

/-- An object of the library, or one of the other users. -/
inductive Owner (ι : Type*)
  | object (i : ι)
  | user
  deriving DecidableEq

inductive Object
  | tcpServer (listeningEvent : Fd)
  | netlink (event : Fd)

/-- `m_listeningEvent` and `m_event`. -/
def Object.event : Object → Fd
  | .tcpServer listeningEvent => listeningEvent
  | .netlink event => event

/-- `owner` and `hasClosed` only record what has happened: who has an open number, and which
numbers an object has closed and not got again. -/
structure St (ι : Type*) where
  lo : EventLoop (Owner ι) Files
  objects : ι → Option Object
  owner : Fd → Option (Owner ι)
  hasClosed : ι → Fd → Bool

/-- How `TcpServer::start` ends: before it needs a socket, without one, at one of the calls
after it, or with the registration. -/
inductive Start
  | noCallback | noSocket | failed
  | listening (a : Addr)
  deriving DecidableEq

inductive Label (ι : Type*)
  | newTcpServer (i : ι)
  | start (i : ι) (o : Start)
  /-- the constructor has bound its socket -/
  | newNetlink (i : ι)
  /-- the constructor throws, with or without a socket -/
  | noNetlink (opened : Bool)
  | startNetlink (i : ι) (a : Addr)
  | stop (i : ι)
  | destroy (i : ι)
  | userOpen
  | userAdd (d : Dir) (fd : Fd) (a : Addr)
  | userErase (d : Dir) (fd : Fd)
  | userClose (fd : Fd)

variable {ι : Type*} [DecidableEq ι]

/-- A new descriptor and its owner. -/
def socket (s : St ι) (w : Owner ι) : St ι :=
  { s with
    lo := { s.lo with kernel := s.lo.kernel.socket.1 }
    owner := Function.update s.owner s.lo.kernel.socket.2 (some w) }

def closeFd (s : St ι) (fd : Fd) : St ι :=
  { s with
    lo := { s.lo with kernel := s.lo.kernel.close fd }
    owner := Function.update s.owner fd none }

/-- An object gets a number. -/
def assign (s : St ι) (i : ι) (o : Object) : St ι :=
  { s with
    objects := Function.update s.objects i (some o)
    hasClosed := Function.update s.hasClosed i (Function.update (s.hasClosed i) o.event false) }

/-- A new object has not closed anything. -/
def create (s : St ι) (i : ι) (o : Object) : St ι :=
  { s with
    objects := Function.update s.objects i (some o)
    hasClosed := Function.update s.hasClosed i fun _ => false }

def start (s : St ι) (i : ι) : Start → Option (St ι)
  | .noCallback => some s
  | .noSocket => some (assign s i (.tcpServer (-1)))
  | .failed => some (assign (socket s (.object i)) i (.tcpServer s.lo.kernel.socket.2))
  | .listening a =>
    let s' := assign (socket s (.object i)) i (.tcpServer s.lo.kernel.socket.2)
    (register .inp s'.lo s.lo.kernel.socket.2 (some (.object i)) a).map fun l => { s' with lo := l }

/-- `TcpServer::stop` and `Netlink::stop`. Closing -1 fails. -/
def stop (s : St ι) (i : ι) (o : Object) : St ι :=
  let s := { s with lo := (eraseEvent s.lo o.event).1 }
  let s' := closeFd s o.event
  if o.event = -1 then s'
  else { s' with
    hasClosed := Function.update s.hasClosed i (Function.update (s.hasClosed i) o.event true) }

def step (s : St ι) : Label ι → Option (St ι)
  | .newTcpServer i =>
    if (s.objects i).isNone then some (create s i (.tcpServer (-1))) else none
  | .start i o =>
    match s.objects i with
    | some (.tcpServer _) => start s i o
    | _ => none
  | .newNetlink i =>
    if (s.objects i).isNone then
      some (create (socket s (.object i)) i (.netlink s.lo.kernel.socket.2))
    else none
  | .noNetlink opened => some (if opened then socket s .user else s)
  | .startNetlink i a =>
    match s.objects i with
    | some (.netlink event) =>
      (register .inp s.lo event (some (.object i)) a).map fun l => { s with lo := l }
    | _ => none
  | .stop i => (s.objects i).map fun o => stop s i o
  | .destroy i =>
    (s.objects i).map fun o =>
      { stop s i o with objects := Function.update s.objects i none }
  | .userOpen => some (socket s .user)
  | .userAdd d fd a =>
    if s.owner fd = some .user then
      (register d s.lo fd (some .user) a).map fun l => { s with lo := l }
    else none
  | .userErase d fd =>
    if s.owner fd = some .user then some { s with lo := (eraseHandler d s.lo fd).1 } else none
  | .userClose fd => if s.owner fd = some .user then some (closeFd s fd) else none

/-- A process with an event loop, before it has any of the objects. -/
def init (lo : EventLoop (Owner ι) Files) : St ι :=
  ⟨lo, fun _ => none, fun _ => none, fun _ _ => false⟩

/-! ### What the calls say -/

/-- The object whose `stop` a label runs. -/
def Label.stops : Label ι → Option ι
  | .stop i => some i
  | .destroy i => some i
  | _ => none

/-- The object that gets a descriptor. -/
def Label.opens : Label ι → Option ι
  | .start i .failed => some i
  | .start i (.listening _) => some i
  | .newNetlink i => some i
  | _ => none

/-- The object that is without a descriptor. -/
def Label.clears : Label ι → Option ι
  | .newTcpServer i => some i
  | .start i .noSocket => some i
  | _ => none

inductive Status
  | unopened | opened | stopped
  deriving DecidableEq

/-- What an object has done last, from the calls, the newest first. -/
def status (i : ι) : List (Label ι) → Status
  | [] => .unopened
  | l :: past =>
    if l.opens = some i then .opened
    else if l.clears = some i then .unopened
    else if l.stops = some i ∧ status i past = .opened then .stopped
    else status i past

/-- The condition on the calls: `stop` is not called on an object that has stopped since it got
its last descriptor. -/
def StopsOnce : List (Label ι) → Prop
  | [] => True
  | l :: past => (∀ i, l.stops = some i → status i past ≠ .stopped) ∧ StopsOnce past

/-- The number in the member of an object belongs to no one else, and the object has not closed
it already. -/
def Lawful (s : St ι) (i : ι) : Prop :=
  ∀ o, s.objects i = some o →
    (∀ w, s.owner o.event = some w → w = .object i) ∧ s.hasClosed i o.event = false

/-- Every `stop` erases and closes a number that it may erase and close. -/
def LawfulStop (s : St ι) (l : Label ι) : Prop := ∀ i, l.stops = some i → Lawful s i

/-! ### The invariant -/

/-- What the member of an object stands for. -/
def Member (s : St ι) (i : ι) (o : Object) : Status → Prop
  | .unopened => o.event = -1 ∧ s.hasClosed i (-1) = false
  | .opened => s.owner o.event = some (.object i) ∧ s.hasClosed i o.event = false
  | .stopped => s.hasClosed i o.event = true

structure Inv (past : List (Label ι)) (s : St ι) : Prop where
  isOpen : ∀ fd w, s.owner fd = some w → s.lo.kernel.isOpen fd = true
  member : ∀ i o, s.objects i = some o → Member s i o (status i past)

variable {s t : St ι} {past : List (Label ι)} {l : Label ι} {i j : ι} {o : Object}
  {fd : Fd} {w : Owner ι}

lemma status_other (ho : l.opens ≠ some j) (hc : l.clears ≠ some j) (hs : l.stops ≠ some j) :
    status j (l :: past) = status j past := by
  simp [status, ho, hc, hs]

lemma Inv.owner_neg (hs : Inv past s) : s.owner (-1) = none := by
  rcases hw : s.owner (-1) with _ | w
  · rfl
  · have hopen := hs.isOpen _ _ hw
    rw [not_isOpen_neg] at hopen
    cases hopen

omit [DecidableEq ι] in
/-- A member keeps what it stands for as long as nobody touches its number. -/
lemma Member.frame {st : Status} (hm : Member s j o st)
    (hown : s.owner o.event = some (.object j) → t.owner o.event = some (.object j))
    (hclosed : t.hasClosed j = s.hasClosed j) : Member t j o st := by
  cases st with
  | unopened => exact ⟨hm.1, by rw [hclosed]; exact hm.2⟩
  | opened => exact ⟨hown hm.1, by rw [hclosed]; exact hm.2⟩
  | stopped => exact (congrFun hclosed _).trans hm

/-- With the invariant, a `stop` is lawful exactly when it is the first one. -/
lemma lawful_iff (hs : Inv past s) (ho : s.objects i = some o) :
    Lawful s i ↔ status i past ≠ .stopped := by
  have hm := hs.member i o ho
  have huniq : Lawful s i ↔ (∀ w, s.owner o.event = some w → w = .object i) ∧
      s.hasClosed i o.event = false :=
    ⟨fun h => h o ho, fun h o' ho' => by obtain rfl := Option.some.inj (ho.symm.trans ho'); exact h⟩
  rw [huniq]
  cases hst : status i past with
  | unopened =>
    rw [hst] at hm
    refine iff_of_true ⟨fun w hw => ?_, ?_⟩ nofun
    · rw [hm.1, hs.owner_neg] at hw
      cases hw
    · rw [hm.1]
      exact hm.2
  | opened =>
    rw [hst] at hm
    refine iff_of_true ⟨fun w hw => ?_, hm.2⟩ nofun
    rw [hm.1] at hw
    exact (Option.some.inj hw).symm
  | stopped =>
    rw [hst] at hm
    refine iff_of_false (fun h => ?_) fun h => h rfl
    rw [show s.hasClosed i o.event = true from hm] at h
    cases h.2

/-! ### The operations -/

lemma owner_socket (hs : Inv past s) (hw : s.owner fd = some w) (w' : Owner ι) :
    (socket s w').owner fd = some w := by
  have hne : fd ≠ s.lo.kernel.socket.2 := by
    rintro rfl
    have hopen := hs.isOpen _ _ hw
    rw [socket_free] at hopen
    cases hopen
  exact (Function.update_of_ne hne _ _).trans hw

lemma isOpen_socket (hs : Inv past s) {w' : Owner ι} (hw : (socket s w').owner fd = some w) :
    (socket s w').lo.kernel.isOpen fd = true := by
  refine socket_isOpen.mpr ?_
  by_cases hfd : fd = s.lo.kernel.socket.2
  · exact .inl hfd
  · have hold : s.owner fd = some w := (Function.update_of_ne hfd _ _).symm.trans hw
    exact .inr (hs.isOpen _ _ hold)

omit [DecidableEq ι] in
lemma owner_closeFd_of_ne {g : Fd} (h : g ≠ fd) : (closeFd s fd).owner g = s.owner g :=
  Function.update_of_ne h _ _

omit [DecidableEq ι] in
lemma isOpen_closeFd (hs : ∀ g w, s.owner g = some w → s.lo.kernel.isOpen g = true) {g : Fd}
    (hw : (closeFd s fd).owner g = some w) : (closeFd s fd).lo.kernel.isOpen g = true := by
  have hne : g ≠ fd := by
    rintro rfl
    have hnone : (closeFd s g).owner g = none := Function.update_self ..
    rw [hnone] at hw
    cases hw
  rw [owner_closeFd_of_ne hne] at hw
  exact close_isOpen.mpr ⟨hne, hs _ _ hw⟩

/-- A step that changes only the event loop, and opens and closes nothing. -/
lemma Inv.of_lo {lo : EventLoop (Owner ι) Files} (hs : Inv past s)
    (ho : ∀ g, lo.kernel.isOpen g = s.lo.kernel.isOpen g)
    (hst : ∀ j, status j (l :: past) = status j past) :
    Inv (l :: past) { s with lo := lo } :=
  ⟨fun fd w hw => (ho fd).trans (hs.isOpen fd w hw), fun j o hj => by
    rw [hst]
    exact (hs.member j o hj).frame id rfl⟩

omit [DecidableEq ι] in
lemma isOpen_register {d : Dir} {lo lo' : EventLoop (Owner ι) Files} {eh : Option (Owner ι)}
    {a : Addr} (h : register d lo fd eh a = some lo') (g : Fd) :
    lo'.kernel.isOpen g = lo.kernel.isOpen g := by
  obtain ⟨ha, rfl⟩ := register_some h
  exact isOpen_addHandler g

lemma inv_socket (hs : Inv past s) (hst : ∀ j, status j (l :: past) = status j past)
    (w' : Owner ι) : Inv (l :: past) (socket s w') :=
  ⟨fun _ _ hw => isOpen_socket hs hw, fun j o hj => by
    rw [hst]
    exact (hs.member j o hj).frame (fun hw => owner_socket hs hw w') rfl⟩

/-- An object gets a new descriptor. -/
lemma inv_opens (hs : Inv past s) (hl : l.opens = some i) (hc : l.clears = none)
    (hp : l.stops = none) (ho : o.event = s.lo.kernel.socket.2) {f : Fd → Bool}
    (hf : f o.event = false) :
    Inv (l :: past) { socket s (.object i) with
      objects := Function.update s.objects i (some o)
      hasClosed := Function.update s.hasClosed i f } := by
  refine ⟨fun _ _ hw => isOpen_socket hs hw, fun j o' hj => ?_⟩
  by_cases hji : j = i
  · subst hji
    have heq : o = o' := by simpa using hj
    subst heq
    have hst : status j (l :: past) = .opened := by simp [status, hl]
    rw [hst]
    exact ⟨by simp [socket, ho], by simp [hf]⟩
  · have hj' : s.objects j = some o' := by simpa [Function.update_of_ne hji] using hj
    rw [status_other (by simp [hl, Ne.symm hji]) (by simp [hc]) (by simp [hp])]
    exact (hs.member j o' hj').frame (fun hw => owner_socket hs hw _)
      (Function.update_of_ne hji _ _)

/-- An object is without a descriptor. -/
lemma inv_clears (hs : Inv past s) (hl : l.opens = none) (hc : l.clears = some i)
    (hp : l.stops = none) {f : Fd → Bool} (hf : f (-1) = false) :
    Inv (l :: past) { s with
      objects := Function.update s.objects i (some (.tcpServer (-1)))
      hasClosed := Function.update s.hasClosed i f } := by
  refine ⟨hs.isOpen, fun j o' hj => ?_⟩
  by_cases hji : j = i
  · subst hji
    have heq : .tcpServer (-1) = o' := by simpa using hj
    subst heq
    have hst : status j (l :: past) = .unopened := by simp [status, hl, hc]
    rw [hst]
    exact ⟨rfl, by simp [hf]⟩
  · have hj' : s.objects j = some o' := by simpa [Function.update_of_ne hji] using hj
    rw [status_other (by simp [hl]) (by simp [hc, Ne.symm hji]) (by simp [hp])]
    exact (hs.member j o' hj').frame id (Function.update_of_ne hji _ _)

@[simp] lemma stop_objects (s : St ι) (i : ι) (o : Object) :
    (stop s i o).objects = s.objects := by
  unfold stop
  split <;> rfl

@[simp] lemma stop_owner (s : St ι) (i : ι) (o : Object) :
    (stop s i o).owner = Function.update s.owner o.event none := by
  unfold stop
  split <;> rfl

lemma stop_isOpen (s : St ι) (i : ι) (o : Object) (g : Fd) :
    (stop s i o).lo.kernel.isOpen g = true ↔ g ≠ o.event ∧ s.lo.kernel.isOpen g = true := by
  have hclose : (stop s i o).lo.kernel = (eraseEvent s.lo o.event).1.kernel.close o.event := by
    unfold stop
    split <;> rfl
  rw [hclose, close_isOpen, eraseEvent, isOpen_eraseHandler]

lemma stop_hasClosed (s : St ι) (i : ι) (o : Object) : (stop s i o).hasClosed =
    if o.event = -1 then s.hasClosed
    else Function.update s.hasClosed i (Function.update (s.hasClosed i) o.event true) := by
  unfold stop
  split <;> rfl

/-- The object itself has stopped, or had nothing to stop. -/
lemma member_stop_self (hs : Inv past s) (ho : s.objects i = some o)
    (hst : status i past ≠ .stopped) (hl : l.opens = none) (hc : l.clears = none)
    (hp : l.stops = some i) : Member (stop s i o) i o (status i (l :: past)) := by
  have hm := hs.member i o ho
  cases hpast : status i past with
  | unopened =>
    rw [hpast] at hm
    have hnext : status i (l :: past) = .unopened := by simp [status, hl, hc, hpast]
    rw [hnext]
    exact ⟨hm.1, by simpa [stop_hasClosed, hm.1] using hm.2⟩
  | opened =>
    rw [hpast] at hm
    have hown : s.owner o.event = some (.object i) := hm.1
    have hneg : o.event ≠ -1 := by
      intro h
      rw [h, hs.owner_neg] at hown
      cases hown
    have hnext : status i (l :: past) = .stopped := by simp [status, hl, hc, hp, hpast]
    rw [hnext]
    simp [Member, stop_hasClosed, hneg]
  | stopped => exact absurd hpast hst

/-- A lawful `stop` touches no number of another object. -/
lemma member_stop_other {o' : Object} {st : Status} (ho : s.objects i = some o)
    (hlawful : Lawful s i) (hji : j ≠ i) (hm : Member s j o' st) :
    Member (stop s i o) j o' st := by
  refine hm.frame (fun hw => ?_) ?_
  · have hne : o'.event ≠ o.event := by
      intro heq
      rw [heq] at hw
      exact hji (by simpa using (hlawful o ho).1 _ hw)
    rw [stop_owner, Function.update_of_ne hne, hw]
  · rw [stop_hasClosed]
    split
    · rfl
    · exact Function.update_of_ne hji _ _

lemma isOpen_stop (hs : Inv past s) (hw : (stop s i o).owner fd = some w) :
    (stop s i o).lo.kernel.isOpen fd = true := by
  rw [stop_owner] at hw
  have hne : fd ≠ o.event := by
    rintro rfl
    rw [Function.update_self] at hw
    cases hw
  rw [Function.update_of_ne hne] at hw
  exact (stop_isOpen s i o fd).mpr ⟨hne, hs.isOpen _ _ hw⟩

lemma inv_stop (hs : Inv past s) (ho : s.objects i = some o) (hlawful : Lawful s i)
    (hl : l.opens = none) (hc : l.clears = none) (hp : l.stops = some i)
    {objects : ι → Option Object}
    (hsub : ∀ j o', objects j = some o' → s.objects j = some o') :
    Inv (l :: past) { stop s i o with objects } := by
  refine ⟨fun fd w hw => isOpen_stop hs hw, fun j o' hj => ?_⟩
  have hj' := hsub j o' hj
  by_cases hji : j = i
  · subst hji
    obtain rfl : o = o' := Option.some.inj (ho.symm.trans hj')
    exact member_stop_self hs ho ((lawful_iff hs ho).mp hlawful) hl hc hp
  · rw [status_other (by simp [hl]) (by simp [hc]) (by simp [hp, Ne.symm hji])]
    exact member_stop_other ho hlawful hji (hs.member j o' hj')

/-- A lawful `stop` leaves the descriptors and registrations of all others as they are. -/
theorem stop_frame (ho : s.objects i = some o) (hlawful : Lawful s i) (hw : s.owner fd = some w)
    (hne : w ≠ .object i) : (stop s i o).owner fd = some w ∧
      (stop s i o).lo.kernel.isOpen fd = s.lo.kernel.isOpen fd ∧
      ∀ d, handler (stop s i o).lo.eventInfos fd d = handler s.lo.eventInfos fd d := by
  have hfd : fd ≠ o.event := by
    rintro rfl
    exact hne ((hlawful o ho).1 w hw)
  refine ⟨?_, ?_, fun d => ?_⟩
  · rw [stop_owner, Function.update_of_ne hfd, hw]
  · rw [Bool.eq_iff_iff, stop_isOpen, and_iff_right hfd]
  · have hinfos : (stop s i o).lo.eventInfos = (eraseEvent s.lo o.event).1.eventInfos := by
      unfold stop
      split <;> rfl
    rw [hinfos]
    exact handler_eraseHandler_of_ne fun h => hfd h.1

lemma inv_listening {a : Addr} (hs : Inv past s) (h : start s i (.listening a) = some t) :
    Inv (.start i (.listening a) :: past) t := by
  obtain ⟨lo, hlo, rfl⟩ := Option.map_eq_some_iff.mp h
  have hopens : Inv (.start i (.listening a) :: past)
      (assign (socket s (.object i)) i (.tcpServer s.lo.kernel.socket.2)) :=
    inv_opens hs rfl rfl rfl rfl (by simp)
  exact ⟨fun fd w hw => (isOpen_register hlo fd).trans (hopens.isOpen fd w hw),
    fun j o' hj => (hopens.member j o' hj).frame id rfl⟩

/-- The others close what they own. -/
lemma inv_userClose (hs : Inv past s) (howner : s.owner fd = some .user)
    (hst : ∀ j, status j (l :: past) = status j past) : Inv (l :: past) (closeFd s fd) := by
  refine ⟨fun g w hw => isOpen_closeFd hs.isOpen hw, fun j o hj => ?_⟩
  rw [hst]
  refine (hs.member j o hj).frame (fun hw => ?_) rfl
  have hne : o.event ≠ fd := by
    intro heq
    rw [heq, howner] at hw
    cases hw
  exact (owner_closeFd_of_ne hne).trans hw

lemma inv_step (hs : Inv past s) (hlawful : LawfulStop s l) (h : step s l = some t) :
    Inv (l :: past) t := by
  cases l with
  | newTcpServer i =>
    simp only [step] at h
    split at h <;> cases h
    exact inv_clears hs rfl rfl rfl rfl
  | start i o =>
    simp only [step] at h
    split at h <;> try cases h
    cases o with
    | noCallback =>
      cases h
      exact hs.of_lo (fun _ => rfl) fun _ => rfl
    | noSocket =>
      cases h
      exact inv_clears hs rfl rfl rfl (by simp [Object.event])
    | failed =>
      cases h
      exact inv_opens hs rfl rfl rfl rfl (by simp)
    | listening a => exact inv_listening hs h
  | newNetlink i =>
    simp only [step] at h
    split at h <;> cases h
    exact inv_opens hs rfl rfl rfl rfl rfl
  | noNetlink opened =>
    cases h
    split
    · exact inv_socket hs (fun _ => rfl) _
    · exact hs.of_lo (fun _ => rfl) fun _ => rfl
  | startNetlink i a =>
    simp only [step] at h
    split at h <;> try cases h
    obtain ⟨lo, hlo, rfl⟩ := Option.map_eq_some_iff.mp h
    exact hs.of_lo (isOpen_register hlo) fun _ => rfl
  | stop i =>
    obtain ⟨o, ho, rfl⟩ := Option.map_eq_some_iff.mp h
    have heq : { stop s i o with objects := s.objects } = stop s i o := by
      rw [← stop_objects s i o]
    rw [← heq]
    exact inv_stop hs ho (hlawful i rfl) rfl rfl rfl fun _ _ hj => hj
  | destroy i =>
    obtain ⟨o, ho, rfl⟩ := Option.map_eq_some_iff.mp h
    refine inv_stop hs ho (hlawful i rfl) rfl rfl rfl fun j o' hj => ?_
    by_cases hji : j = i
    · subst hji
      simp at hj
    · rwa [Function.update_of_ne hji] at hj
  | userOpen =>
    cases h
    exact inv_socket hs (fun _ => rfl) _
  | userAdd d fd a =>
    simp only [step] at h
    split at h <;> try cases h
    obtain ⟨lo, hlo, rfl⟩ := Option.map_eq_some_iff.mp h
    exact hs.of_lo (isOpen_register hlo) fun _ => rfl
  | userErase d fd =>
    simp only [step] at h
    split at h <;> cases h
    exact hs.of_lo isOpen_eraseHandler fun _ => rfl
  | userClose fd =>
    simp only [step] at h
    split at h <;> rename_i howner <;> cases h
    exact inv_userClose hs howner fun _ => rfl

/-- Only an object that there is can stop. -/
lemma stops_some (hi : l.stops = some i) (h : step s l = some t) :
    ∃ o, s.objects i = some o := by
  cases l with
  | stop j | destroy j =>
    cases hi
    obtain ⟨o, ho, -⟩ := Option.map_eq_some_iff.mp h
    exact ⟨o, ho⟩
  | _ => cases hi

lemma inv_run {lo : EventLoop (Owner ι) Files} {ls : List (Label ι)}
    (hlawful : Meets step LawfulStop (init lo) ls) (h : run step (init lo) ls = some s) :
    Inv ls.reverse s := by
  induction ls using List.reverseRecOn generalizing s with
  | nil =>
    obtain rfl : init lo = s := by simpa using h
    exact ⟨nofun, nofun⟩
  | append_singleton ls l ih =>
    obtain ⟨u, hu, hl⟩ := run_snoc_some.mp h
    obtain ⟨hls, hlast⟩ := meets_snoc.mp hlawful
    rw [List.reverse_append]
    exact inv_step (ih hls hu) (hlast u hu) hl

/-- **Objects close and erase only what they own.** In every run of servers, netlink objects and
other users, every `stop` and destructor finds a number in the member that belongs to no one
else and that the object has not closed already if and only if none of them comes after a
`stop` of the same object without a new descriptor in between. -/
theorem stops_lawful {lo : EventLoop (Owner ι) Files} {ls : List (Label ι)}
    (h : run step (init lo) ls = some s) :
    Meets step LawfulStop (init lo) ls ↔ StopsOnce ls.reverse := by
  induction ls using List.reverseRecOn generalizing s with
  | nil => simp [StopsOnce]
  | append_singleton ls l ih =>
    obtain ⟨u, hu, hl⟩ := run_snoc_some.mp h
    rw [List.reverse_append, meets_snoc]
    have hlast : (∀ v, run step (init lo) ls = some v → LawfulStop v l) ↔ LawfulStop u l :=
      ⟨fun hv => hv u hu, fun hlu v hv => by
        obtain rfl := Option.some.inj (hu.symm.trans hv)
        exact hlu⟩
    rw [hlast, ih hu, and_comm]
    refine and_congr_left fun honce => ?_
    have hinv : Inv ls.reverse u := inv_run ((ih hu).mpr honce) hu
    refine forall₂_congr fun i hi => ?_
    obtain ⟨o, ho⟩ := stops_some hi hl
    exact lawful_iff hinv ho

/-- A new event loop with stop descriptor 0. -/
def loop : EventLoop (Owner ℕ) Files where
  events := fun _ => ⟨0, none⟩
  eventCount := 0
  eventInfos := .empty
  kernel := (Files.none.socket.1.ctl .ADD 0 (some ⟨EPOLLIN ||| EPOLLET, none⟩)).1

def restarted : List (Label ℕ) :=
  [.newTcpServer 0, .start 0 (.listening 1), .newNetlink 1, .startNetlink 1 2, .stop 0,
    .start 0 .failed, .stop 0, .stop 1]

theorem stops_lawful_restarted :
    Meets step LawfulStop (init loop) restarted ↔ StopsOnce restarted.reverse := by
  have hrun : run step (init loop) restarted = some _ := rfl
  exact stops_lawful hrun

/-- A server is stopped, another user gets its number, and the server is destroyed. -/
def stoppedTwice : List (Label ℕ) :=
  [.newTcpServer 0, .start 0 (.listening 1), .stop 0, .userOpen, .userAdd .inp 1 1]

/-- The destructor closes the descriptor and removes the registration of the other user. -/
theorem closes_of_other : ∃ s t, run step (init loop) stoppedTwice = some s ∧
    step s (.destroy 0) = some t ∧
    ¬ Meets step LawfulStop (init loop) (stoppedTwice ++ [.destroy 0]) ∧
    s.owner 1 = some .user ∧
    (s.lo.kernel.isOpen 1 = true ∧ t.lo.kernel.isOpen 1 = false) ∧
    handler s.lo.eventInfos 1 .inp = some .user ∧
    handler t.lo.eventInfos 1 .inp = none := by
  refine ⟨_, _, rfl, rfl, fun h => ?_, rfl, ⟨rfl, rfl⟩, rfl, rfl⟩
  have hrun : run step (init loop) stoppedTwice = some _ := rfl
  have howner := (meets_snoc.mp h).2 _ hrun 0 rfl (.tcpServer 1) rfl
  cases howner.1 .user rfl

end Hbm.Owners
