import Hbm.StartStop
import Hbm.Multicast

/-!
The memberships of a multicast server under Linux.

`addInterface` returns 1 for a membership that is new, 0 for one that was there and -1 if it fails;
`dropInterface` does the same for one that it ends. The kernel keeps memberships with the socket, so
that closing the socket ends them.
-/

namespace Hbm.Membership

open Hbm.Size Hbm.Epoll Hbm.Descriptors Hbm.StartStop Hbm.Run
open Hbm.Multicast (Netadapter NetadapterList)

/-- A group, and the interface that receives from it. -/
structure Member where
  group : ℕ
  interface : ℤ
  deriving DecidableEq

/-- A call that has asked the kernel, and what it has returned. -/
structure Call where
  add : Bool
  member : Member
  ret : ℤ
  deriving DecidableEq

/-! ### The calls on a set -/

/-- The last call for a membership that did not fail; the calls are newest first. -/
def lastDone (m : Member) (calls : List Call) : Option Bool :=
  (calls.find? fun c => decide (c.member = m) && c.ret != -1).map (·.add)

/-- The membership is there if the last call that did not fail has added it. -/
def added (m : Member) (calls : List Call) : Bool := lastDone m calls == some true

/-- How often a call has said that it added, or ended, the membership. -/
def changes (add : Bool) (m : Member) (calls : List Call) : ℕ :=
  calls.countP fun c => decide (c.member = m) && c.add == add && c.ret == 1

/-- Every call has failed, or it has returned whether it changed anything. -/
def Truthful : List Call → Prop
  | [] => True
  | c :: calls =>
    (c.ret = -1 ∨ c.ret = if added c.member calls = c.add then 0 else 1) ∧ Truthful calls

variable {m : Member} {c : Call} {calls : List Call}

lemma added_cons : added m (c :: calls) =
    if c.member = m ∧ c.ret ≠ -1 then c.add else added m calls := by
  unfold added lastDone
  by_cases h : c.member = m ∧ c.ret ≠ -1
  · rw [List.find?_cons_of_pos (by simp [h]), if_pos h, Option.map_some]
    cases c.add <;> rfl
  · rw [List.find?_cons_of_neg (by simpa using h), if_neg h]

lemma changes_cons {add : Bool} : changes add m (c :: calls) =
    changes add m calls + if c.member = m ∧ c.add = add ∧ c.ret = 1 then 1 else 0 := by
  unfold changes
  rw [List.countP_cons]
  by_cases hm : c.member = m <;> by_cases hadd : c.add = add <;> by_cases hret : c.ret = 1 <;>
    simp [hm, hadd, hret]

/-- The calls that changed something take turns, so there is at most one more that added. -/
lemma changes_balance (h : Truthful calls) :
    changes true m calls = changes false m calls + if added m calls then 1 else 0 := by
  induction calls with
  | nil => rfl
  | cons c calls ih =>
    obtain ⟨hret, hrest⟩ := h
    have hih := ih hrest
    rw [changes_cons, changes_cons, added_cons]
    by_cases hm : c.member = m
    · subst hm
      rcases hret with hret | hret
      · simpa [hret] using hih
      · cases hadd : c.add <;> cases hold : added c.member calls <;>
          simp [hadd, hold] at hret hih ⊢ <;> simp [hret] <;> omega
    · simpa [hm] using hih

/-! ### The server and the kernel -/

/-- The memberships of a socket, and the calls made with it. -/
structure Sock where
  members : Member → Bool
  calls : List Call

/-- A new socket. -/
def Sock.new : Sock := ⟨fun _ => false, []⟩

/-- What comes of `setsockopt`. -/
inductive Errno
  | done | EADDRINUSE | EADDRNOTAVAIL | other

/-- The kernel decides whether it refuses, and which interface it takes where no index is given. -/
structure Answer where
  found : ℤ
  refused : Bool

/-- `IP_ADD_MEMBERSHIP` and `IP_DROP_MEMBERSHIP`. -/
def setsockopt (members : Member → Bool) (add : Bool) (m : Member) (refused : Bool) :
    (Member → Bool) × Errno :=
  if refused then (members, .other)
  else if members m = add then (members, if add then .EADDRINUSE else .EADDRNOTAVAIL)
  else (Function.update members m add, .done)

/-- The interface that the kernel takes: an index of 0 is none. -/
def Answer.interface (a : Answer) (interfaceIndex : ℕ) : ℤ :=
  if toInt interfaceIndex = 0 then a.found else toInt interfaceIndex

/-- `getaddrinfo` for the group, and `inet_aton`. -/
structure Env where
  getaddrinfo : String → Option ℕ
  aton : String → Option ℕ

structure St where
  server : MulticastServer
  multicastgroup : String
  netadapterList : NetadapterList
  socks : Fd → Sock

/-- What the overloads of `dropOrAddInterface` do with the socket, from `setsockopt` on. -/
def Sock.change (k : Sock) (m : Member) (add refused : Bool) : Sock × ℤ :=
  let x := setsockopt k.members add m refused
  let ret := match x.2 with
    | .done => 1
    | .EADDRINUSE => if add then 0 else -1
    | .EADDRNOTAVAIL => if add then -1 else 0
    | .other => -1
  (⟨x.1, ⟨add, m, ret⟩ :: k.calls⟩, ret)

namespace St

/-- The same with the server, which may have no socket. -/
def change (s : St) (m : Member) (add refused : Bool) : St × ℤ :=
  let fd := s.server.receiveEvent
  if s.server.proc.opened fd then
    let x := (s.socks fd).change m add refused
    ({ s with socks := Function.update s.socks fd x.1 }, x.2)
  else (s, -1)

section

variable (e : Env)

/-- The overload for an index. -/
def dropOrAddInterface (s : St) (interfaceIndex : ℕ) (add : Bool) (a : Answer) : St × ℤ :=
  match e.getaddrinfo s.multicastgroup with
  | none => (s, -1)
  | some group => s.change ⟨group, a.interface interfaceIndex⟩ add a.refused

/-- The overload for an address. -/
def dropOrAddInterfaceAddress (s : St) (interfaceAddress : String) (add : Bool) (a : Answer) :
    St × ℤ :=
  match e.getaddrinfo s.multicastgroup with
  | none => (s, -1)
  | some group =>
    match e.aton interfaceAddress with
    | none => (s, -1)
    | some _ => s.change ⟨group, a.found⟩ add a.refused

def addInterface (s : St) (interfaceIndex : ℕ) (a : Answer) : St × ℤ :=
  s.dropOrAddInterface e interfaceIndex true a

def dropInterface (s : St) (interfaceIndex : ℕ) (a : Answer) : St × ℤ :=
  s.dropOrAddInterface e interfaceIndex false a

def addInterfaceAddress (s : St) (interfaceAddress : String) (a : Answer) : St × ℤ :=
  s.dropOrAddInterfaceAddress e interfaceAddress true a

def dropInterfaceAddress (s : St) (interfaceAddress : String) (a : Answer) : St × ℤ :=
  s.dropOrAddInterfaceAddress e interfaceAddress false a

/-- One adapter after the other; nothing is made of the results. -/
def forAll (f : St → ℕ → Answer → St × ℤ) (s : St) (answers : ℕ → Answer) : St :=
  s.netadapterList.adapters.foldl (fun s a => (f s a.index (answers a.index)).1) s

def addAllInterfaces (s : St) (answers : ℕ → Answer) : St := forAll (addInterface e) s answers

def dropAllInterfaces (s : St) (answers : ℕ → Answer) : St := forAll (dropInterface e) s answers

/-- A descriptor that is closed takes its memberships along. -/
def withServer (s : St) (server : MulticastServer) : St :=
  { s with
    server := server
    socks := fun fd => if server.proc.opened fd then s.socks fd else .new }

def start (s : St) (multicastGroup : String) (k : MulticastCalls) : St :=
  { s with multicastgroup := multicastGroup }.withServer (s.server.start k).1

def stop (s : St) (answers : ℕ → Answer) : St :=
  let s := if s.server.receiveEvent ≠ -1 then s.dropAllInterfaces e answers else s
  s.withServer s.server.stop

end

end St

inductive Label
  | start (multicastGroup : String) (k : MulticastCalls)
  | stop (answers : ℕ → Answer)
  | byIndex (add : Bool) (interfaceIndex : ℕ) (a : Answer)
  | byAddress (add : Bool) (interfaceAddress : String) (a : Answer)
  | all (add : Bool) (answers : ℕ → Answer)
  | update (netadapterList : NetadapterList)
  | userOpen
  | userClose (fd : Fd)

def step (e : Env) (s : St) : Label → Option St
  | .start multicastGroup k => some (s.start multicastGroup k)
  | .stop answers => some (s.stop e answers)
  | .byIndex true interfaceIndex a => some (s.addInterface e interfaceIndex a).1
  | .byIndex false interfaceIndex a => some (s.dropInterface e interfaceIndex a).1
  | .byAddress true interfaceAddress a => some (s.addInterfaceAddress e interfaceAddress a).1
  | .byAddress false interfaceAddress a => some (s.dropInterfaceAddress e interfaceAddress a).1
  | .all true answers => some (s.addAllInterfaces e answers)
  | .all false answers => some (s.dropAllInterfaces e answers)
  | .update netadapterList => some { s with netadapterList := netadapterList }
  | .userOpen => some { s with server := { s.server with proc := s.server.proc.userOpen } }
  | .userClose fd =>
    (s.server.proc.userClose fd).map fun p => { s with server := { s.server with proc := p } }

def init (files : Files) (netadapterList : NetadapterList) : St :=
  ⟨MulticastServer.init files, "", netadapterList, fun _ => .new⟩

/-! ### What a call says -/

/-- The memberships are those that the calls say. -/
structure Sound (k : Sock) : Prop where
  truthful : Truthful k.calls
  members : ∀ m, k.members m = added m k.calls

lemma sound_new : Sound .new := ⟨trivial, fun _ => rfl⟩

variable {e : Env} {s t : St} {l : Label} {fd g : Fd} {add refused : Bool} {m' : Member}

/-- What `change` makes of the socket. -/
structure Changed (k : Sock) (m : Member) (add refused : Bool) (k' : Sock) : Prop where
  sound : Sound k → Sound k'
  members : ∀ m', k'.members m' = if m' = m ∧ refused = false then add else k.members m'

lemma changed_refused (k : Sock) : Changed k m add true (k.change m add true).1 := by
  have hchange : (k.change m add true).1 = ⟨k.members, ⟨add, m, -1⟩ :: k.calls⟩ := rfl
  rw [hchange]
  refine ⟨fun hk => ⟨⟨.inl rfl, hk.truthful⟩, fun m' => ?_⟩, fun m' => by simp⟩
  rw [added_cons, if_neg fun hret => hret.2 rfl]
  exact hk.members m'

lemma changed_nothing {k : Sock} (h : k.members m = add) :
    Changed k m add false (k.change m add false).1 := by
  have hchange : (k.change m add false).1 = ⟨k.members, ⟨add, m, 0⟩ :: k.calls⟩ := by
    cases add <;> simp [Sock.change, setsockopt, h]
  rw [hchange]
  refine ⟨fun hk => ⟨⟨.inr ?_, hk.truthful⟩, fun m' => ?_⟩, fun m' => ?_⟩
  · rw [if_pos ((hk.members m).symm.trans h)]
  · rw [added_cons]
    by_cases hm : m = m'
    · subst hm
      simpa using h
    · simpa [hm] using hk.members m'
  · by_cases hm : m' = m
    · simp [hm, h]
    · simp [hm]

lemma changed_done {k : Sock} (h : k.members m ≠ add) :
    Changed k m add false (k.change m add false).1 := by
  have hchange : (k.change m add false).1 =
      ⟨Function.update k.members m add, ⟨add, m, 1⟩ :: k.calls⟩ := by
    simp [Sock.change, setsockopt, h]
  rw [hchange]
  refine ⟨fun hk => ⟨⟨.inr ?_, hk.truthful⟩, fun m' => ?_⟩, fun m' => ?_⟩
  · rw [if_neg fun hadd => h ((hk.members m).trans hadd)]
  · rw [added_cons]
    by_cases hm : m' = m
    · subst hm
      simp
    · simpa [hm, Ne.symm hm] using hk.members m'
  · by_cases hm : m' = m
    · simp [hm]
    · simp [hm]

lemma changed_change (k : Sock) (m : Member) (add refused : Bool) :
    Changed k m add refused (k.change m add refused).1 := by
  cases refused with
  | true => exact changed_refused k
  | false =>
    by_cases h : k.members m = add
    · exact changed_nothing h
    · exact changed_done h

/-- A step that only asks the kernel for memberships of the group. -/
def Asks (e : Env) (s t : St) : Prop :=
  s = t ∨ ∃ k interface group add refused,
    s.server.proc.opened s.server.receiveEvent = true ∧
      e.getaddrinfo s.multicastgroup = some group ∧
      Changed (s.socks s.server.receiveEvent) ⟨group, interface⟩ add refused k ∧
      t = { s with socks := Function.update s.socks s.server.receiveEvent k }

lemma asks_change {group : ℕ} (h : e.getaddrinfo s.multicastgroup = some group) (interface : ℤ)
    (add refused : Bool) : Asks e s (s.change ⟨group, interface⟩ add refused).1 := by
  unfold St.change
  dsimp only
  split
  · exact .inr ⟨_, interface, group, add, refused, ‹_›, h, changed_change _ _ _ _, rfl⟩
  · exact .inl rfl

lemma asks_byIndex (s : St) (interfaceIndex : ℕ) (add : Bool) (a : Answer) :
    Asks e s (s.dropOrAddInterface e interfaceIndex add a).1 := by
  unfold St.dropOrAddInterface
  split
  · exact .inl rfl
  · exact asks_change ‹_› _ _ _

lemma asks_byAddress (s : St) (interfaceAddress : String) (add : Bool) (a : Answer) :
    Asks e s (s.dropOrAddInterfaceAddress e interfaceAddress add a).1 := by
  unfold St.dropOrAddInterfaceAddress
  split
  · exact .inl rfl
  · split
    · exact .inl rfl
    · exact asks_change ‹_› _ _ _

/-- What every such step keeps, one adapter after the other keeps. -/
lemma forAll_keeps {P : St → Prop} (hask : ∀ s t, P s → Asks e s t → P t)
    {f : St → ℕ → Answer → St × ℤ} (hf : ∀ s interfaceIndex a, Asks e s (f s interfaceIndex a).1)
    (hs : P s) (answers : ℕ → Answer) : P (St.forAll f s answers) := by
  unfold St.forAll
  generalize s.netadapterList.adapters = adapters
  induction adapters generalizing s with
  | nil => exact hs
  | cons a adapters ih => exact ih (hask _ _ hs (hf s a.index (answers a.index)))

lemma addAll_keeps {P : St → Prop} (hask : ∀ s t, P s → Asks e s t → P t) (hs : P s)
    (answers : ℕ → Answer) : P (s.addAllInterfaces e answers) :=
  forAll_keeps hask (fun s interfaceIndex a => asks_byIndex s interfaceIndex true a) hs answers

lemma dropAll_keeps {P : St → Prop} (hask : ∀ s t, P s → Asks e s t → P t) (hs : P s)
    (answers : ℕ → Answer) : P (s.dropAllInterfaces e answers) :=
  forAll_keeps hask (fun s interfaceIndex a => asks_byIndex s interfaceIndex false a) hs answers

/-- A call of the server between `start` and `stop`. -/
lemma call_keeps {P : St → Prop} (hask : ∀ s t, P s → Asks e s t → P t) (hs : P s)
    (hl : (∃ add i a, l = .byIndex add i a) ∨ (∃ add i a, l = .byAddress add i a) ∨
      ∃ add answers, l = .all add answers)
    (h : step e s l = some t) : P t := by
  rcases hl with ⟨add, i, a, rfl⟩ | ⟨add, i, a, rfl⟩ | ⟨add, answers, rfl⟩
  · cases add <;> cases h <;> exact hask _ _ hs (asks_byIndex s i _ a)
  · cases add <;> cases h <;> exact hask _ _ hs (asks_byAddress s i _ a)
  · cases add <;> cases h
    · exact dropAll_keeps hask hs answers
    · exact addAll_keeps hask hs answers

/-! ### Runs -/

/-- Of every socket: the memberships are those that the calls say, and one that is not open has
none. -/
structure Inv (s : St) : Prop where
  sound : ∀ fd, Sound (s.socks fd)
  closed : ∀ fd, s.server.proc.opened fd = false → s.socks fd = .new

lemma inv_asks (hi : Inv s) (h : Asks e s t) : Inv t := by
  rcases h with rfl | ⟨k, interface, group, add, refused, hopen, -, hk, rfl⟩
  · exact hi
  refine ⟨fun fd => ?_, fun fd hfd => ?_⟩
  · by_cases hfd : fd = s.server.receiveEvent
    · subst hfd
      simpa using hk.sound (hi.sound _)
    · simpa [Function.update_of_ne hfd] using hi.sound fd
  · have hne : fd ≠ s.server.receiveEvent := by
      rintro rfl
      simp [hopen] at hfd
    simpa [Function.update_of_ne hne] using hi.closed fd hfd

lemma inv_withServer (hi : ∀ fd, Sound (s.socks fd)) (server : MulticastServer) :
    Inv (s.withServer server) := by
  refine ⟨fun fd => ?_, fun fd hfd => ?_⟩
  · unfold St.withServer
    dsimp only
    split
    · exact hi fd
    · exact sound_new
  · exact if_neg (by simpa [St.withServer] using hfd)

lemma inv_step (hi : Inv s) (h : step e s l = some t) : Inv t := by
  cases l with
  | start multicastGroup k =>
    cases h
    exact inv_withServer (s := { s with multicastgroup := multicastGroup }) hi.sound _
  | stop answers =>
    cases h
    refine inv_withServer ?_ _
    split
    · exact (dropAll_keeps (e := e) (fun s t hs => inv_asks hs) hi answers).sound
    · exact hi.sound
  | byIndex | byAddress | all =>
    exact call_keeps (fun s t hs => inv_asks hs) hi (by simp) h
  | update | userOpen =>
    cases h
    exact ⟨hi.sound, hi.closed⟩
  | userClose fd =>
    obtain ⟨p, hp, rfl⟩ := Option.map_eq_some_iff.mp h
    refine ⟨hi.sound, fun g hg => hi.closed g ?_⟩
    unfold Proc.userClose at hp
    split at hp <;> cases hp
    exact hg

lemma inv_init (files : Files) (netadapterList : NetadapterList) :
    Inv (init files netadapterList) := ⟨fun _ => sound_new, fun _ _ => rfl⟩

/-- **The results tell the memberships.** In every run each call has failed or has returned whether
it changed anything, a socket has the memberships whose last call that did not fail has added them,
and the calls that returned 1 took turns. -/
theorem members_of_calls (files : Files) (netadapterList : NetadapterList) {ls : List Label}
    (h : run (step e) (init files netadapterList) ls = some s) (fd : Fd) :
    Truthful (s.socks fd).calls ∧ ∀ m, (s.socks fd).members m = added m (s.socks fd).calls ∧
      changes true m (s.socks fd).calls =
        changes false m (s.socks fd).calls + if (s.socks fd).members m then 1 else 0 := by
  have hi : Inv s := run_inv (fun _ _ _ hu ht => inv_step hu ht) (inv_init files netadapterList) h
  obtain ⟨htruthful, hmembers⟩ := hi.sound fd
  refine ⟨htruthful, fun m => ⟨hmembers m, ?_⟩⟩
  rw [hmembers m]
  exact changes_balance htruthful

def groupAddress : String := "239.255.77.76"

def env : Env where
  getaddrinfo text := if text = groupAddress then some 0xefff4d4c else none
  aton _ := none

def works : MulticastCalls := ⟨true, true, true, true, true, true, true⟩

def twoAdapters : NetadapterList := ⟨[⟨2, []⟩, ⟨3, []⟩], by simp⟩

def oneAdapter : NetadapterList := ⟨[⟨3, []⟩], by simp⟩

/-- Both adapters are added and the first one once more. Then it goes, and all that are left are
dropped. -/
def adapterGoes : List Label :=
  [.start groupAddress works, .all true fun _ => ⟨0, false⟩, .byIndex true 2 ⟨0, false⟩,
    .update oneAdapter, .all false fun _ => ⟨0, false⟩]

theorem members_of_calls_adapterGoes :
    ∃ s, run (step env) (init Files.none twoAdapters) adapterGoes = some s ∧
      (s.socks 1).calls.map (·.ret) = [1, 0, 1, 1] ∧
      (s.socks 1).members ⟨0xefff4d4c, 2⟩ = added ⟨0xefff4d4c, 2⟩ (s.socks 1).calls := by
  have hrun : run (step env) (init Files.none twoAdapters) adapterGoes = some _ := rfl
  exact ⟨_, hrun, by decide +kernel, ((members_of_calls _ _ hrun 1).2 _).1⟩

/-! ### With nothing open where `start` is called -/

/-- The condition on the steps: `start` is called with nothing open. -/
def StartsClosed (s : St) : Label → Prop
  | .start _ _ => s.server.Closed
  | _ => True

/-- What the kernel has is of the receive socket and of the present group. -/
structure Current (e : Env) (s : St) : Prop where
  inv : Inv s
  server : s.server.Inv
  members : ∀ fd m, (s.socks fd).members m = true →
    fd = s.server.receiveEvent ∧ e.getaddrinfo s.multicastgroup = some m.group

lemma current_asks (hc : Current e s) (h : Asks e s t) : Current e t := by
  have hi := inv_asks hc.inv h
  rcases h with rfl | ⟨k, interface, group, add, refused, hopen, hgroup, hk, rfl⟩
  · exact hc
  refine ⟨hi, hc.server, fun fd m hm => ?_⟩
  by_cases hfd : fd = s.server.receiveEvent
  · subst hfd
    refine ⟨rfl, ?_⟩
    simp only [Function.update_self, hk.members] at hm
    split at hm
    · rename_i hmem
      rw [hmem.1]
      exact hgroup
    · exact (hc.members _ m hm).2
  · simp only [Function.update_of_ne hfd] at hm
    exact hc.members fd m hm

/-- Where nothing is open there are no memberships. -/
lemma current_of_none {server : MulticastServer} (hi : server.Inv)
    (hnone : ∀ fd, server.proc.opened fd = true → s.socks fd = .new) :
    Current e (s.withServer server) := by
  have hnew : ∀ fd, ((s.withServer server).socks fd) = .new := by
    intro fd
    unfold St.withServer
    dsimp only
    split
    · exact hnone fd ‹_›
    · rfl
  refine ⟨⟨fun fd => ?_, fun fd _ => hnew fd⟩, hi, fun fd m hm => ?_⟩
  · rw [hnew fd]
    exact sound_new
  · rw [hnew fd] at hm
    cases hm

lemma current_stop (hc : Current e s) (answers : ℕ → Answer) : Current e (s.stop e answers) := by
  have hs :
      (if s.server.receiveEvent ≠ -1 then s.dropAllInterfaces e answers else s).server.Inv := by
    split
    · exact (dropAll_keeps (fun s t hs => current_asks hs) hc answers).server
    · exact hc.server
  refine current_of_none (MulticastServer.stop_inv hs) fun fd hfd => ?_
  have hclosed := MulticastServer.stop_closed hs.exact fd
  rw [hclosed] at hfd
  cases hfd

lemma current_step (hc : Current e s) (hl : StartsClosed s l) (h : step e s l = some t) :
    Current e t := by
  cases l with
  | start multicastGroup k =>
    cases h
    refine current_of_none (s := { s with multicastgroup := multicastGroup })
      (MulticastServer.start_inv hc.server hl k) fun fd _ => ?_
    exact hc.inv.closed fd (hl fd)
  | stop answers =>
    cases h
    exact current_stop hc answers
  | byIndex | byAddress | all =>
    exact call_keeps (fun s t hs => current_asks hs) hc (by simp) h
  | update netadapterList =>
    cases h
    exact ⟨⟨hc.inv.sound, hc.inv.closed⟩, hc.server, hc.members⟩
  | userOpen =>
    have hi := inv_step hc.inv h
    cases h
    exact ⟨hi, MulticastServer.user_inv hc.server rfl (Proc.userOpen_inv hc.server.proc),
      hc.members⟩
  | userClose fd =>
    have hi := inv_step hc.inv h
    obtain ⟨p, hp, rfl⟩ := Option.map_eq_some_iff.mp h
    obtain ⟨hopened, hproc⟩ := Proc.userClose_inv hc.server.proc hp
    exact ⟨hi, MulticastServer.user_inv hc.server hopened hproc, hc.members⟩

/-- **The memberships are the present ones.** In every run in which `start` is called with nothing
open, the kernel has memberships of the open receive socket and of the present group only, and
after `stop` it has none. -/
theorem members_current (files : Files) (netadapterList : NetadapterList) {ls : List Label}
    (h : run (step e) (init files netadapterList) ls = some s)
    (hok : Meets (step e) StartsClosed (init files netadapterList) ls) :
    (∀ fd m, (s.socks fd).members m = true →
      fd = s.server.receiveEvent ∧ s.server.proc.opened fd = true ∧
        e.getaddrinfo s.multicastgroup = some m.group) ∧
      (s.server.stopped = true → ∀ fd m, (s.socks fd).members m = false) := by
  have hinit : Current e (init files netadapterList) :=
    ⟨inv_init files netadapterList, MulticastServer.init_inv files, fun _ _ hm => by cases hm⟩
  have hc : Current e s := run_inv_of_meets (fun _ _ _ hu hl ht => current_step hu hl ht) hinit
    hok h
  refine ⟨fun fd m hm => ?_, fun hstopped fd m => ?_⟩
  · obtain ⟨hfd, hgroup⟩ := hc.members fd m hm
    refine ⟨hfd, ?_, hgroup⟩
    by_contra hclosed
    rw [hc.inv.closed fd (Bool.eq_false_of_not_eq_true hclosed)] at hm
    cases hm
  · rw [hc.inv.closed fd (hc.server.exact.2 hstopped fd)]
    rfl

theorem members_current_adapterGoes :
    ∃ s, run (step env) (init Files.none twoAdapters) (adapterGoes ++ [.stop fun _ => ⟨0, false⟩]) =
      some s ∧ (s.socks 1).members ⟨0xefff4d4c, 2⟩ = false := by
  have hok : Meets (step env) StartsClosed (init Files.none twoAdapters)
      (adapterGoes ++ [.stop fun _ => ⟨0, false⟩]) :=
    meets_step (fun _ => rfl) rfl <| meets_step trivial rfl <| meets_step trivial rfl <|
      meets_step trivial rfl <| meets_step trivial rfl <| meets_step trivial rfl trivial
  exact ⟨_, rfl, (members_current _ _ rfl hok).2 rfl 1 _⟩

/-! ### All interfaces -/

/-- What one adapter contributes: the socket has changed, the rest of the server has not. -/
lemma byIndex_members {group : ℕ} (hopen : s.server.proc.opened s.server.receiveEvent = true)
    (hgroup : e.getaddrinfo s.multicastgroup = some group) (interfaceIndex : ℕ) (add : Bool)
    (a : Answer) :
    (s.dropOrAddInterface e interfaceIndex add a).1.server = s.server ∧
      (s.dropOrAddInterface e interfaceIndex add a).1.multicastgroup = s.multicastgroup ∧
      ∀ m,
        (((s.dropOrAddInterface e interfaceIndex add a).1.socks s.server.receiveEvent).members m =
        if m = ⟨group, a.interface interfaceIndex⟩ ∧ a.refused = false then add
        else (s.socks s.server.receiveEvent).members m) := by
  have hchange : s.dropOrAddInterface e interfaceIndex add a =
      s.change ⟨group, a.interface interfaceIndex⟩ add a.refused := by
    simp only [St.dropOrAddInterface, hgroup]
  rw [hchange]
  simp only [St.change, if_pos hopen, Function.update_self]
  exact ⟨trivial, trivial, (changed_change _ _ _ _).members⟩

/-- Among the adapters there is one for which the kernel takes this membership. -/
def Taken (adapters : List Netadapter) (group : ℕ) (answers : ℕ → Answer) (m : Member) : Prop :=
  m.group = group ∧ ∃ a ∈ adapters,
    (answers a.index).refused = false ∧ (answers a.index).interface a.index = m.interface

lemma taken_cons {a : Netadapter} {adapters : List Netadapter} {group : ℕ} {answers : ℕ → Answer} :
    Taken (a :: adapters) group answers m ↔
      (m = ⟨group, (answers a.index).interface a.index⟩ ∧ (answers a.index).refused = false) ∨
        Taken adapters group answers m := by
  obtain ⟨mgroup, minterface⟩ := m
  simp only [Taken, List.mem_cons, exists_eq_or_imp, Member.mk.injEq]
  grind

/-- What is taken is added or ended, and the rest is kept. -/
lemma forAll_members {group : ℕ} (hopen : s.server.proc.opened s.server.receiveEvent = true)
    (hgroup : e.getaddrinfo s.multicastgroup = some group) (add : Bool) (answers : ℕ → Answer)
    (m : Member) :
    ((St.forAll (fun s i a => s.dropOrAddInterface e i add a) s answers).socks
        s.server.receiveEvent).members m = true ↔
      Taken s.netadapterList.adapters group answers m ∧ add = true ∨
        ¬ Taken s.netadapterList.adapters group answers m ∧
          (s.socks s.server.receiveEvent).members m = true := by
  unfold St.forAll
  generalize s.netadapterList.adapters = adapters
  induction adapters generalizing s with
  | nil => simp [Taken]
  | cons a adapters ih =>
    obtain ⟨hserver, hsame, hmembers⟩ := byIndex_members hopen hgroup a.index add (answers a.index)
    rw [List.foldl_cons, ← hserver, ih (by rw [hserver]; exact hopen) (by rw [hsame]; exact hgroup),
      hserver, hmembers m, taken_cons]
    split_ifs with hnew
    · simp [hnew]
      tauto
    · simp [hnew]

/-- **All interfaces.** `addAllInterfaces` adds what the kernel does not refuse, in whichever order
the adapters come, and keeps the rest; `dropAllInterfaces` ends it, and leaves the memberships of
the interfaces that are not in the list any more. -/
theorem all_members {group : ℕ} (hopen : s.server.proc.opened s.server.receiveEvent = true)
    (hgroup : e.getaddrinfo s.multicastgroup = some group) (answers : ℕ → Answer) (m : Member) :
    (((s.addAllInterfaces e answers).socks s.server.receiveEvent).members m = true ↔
      Taken s.netadapterList.adapters group answers m ∨
        (s.socks s.server.receiveEvent).members m = true) ∧
    (((s.dropAllInterfaces e answers).socks s.server.receiveEvent).members m = true ↔
      ¬ Taken s.netadapterList.adapters group answers m ∧
        (s.socks s.server.receiveEvent).members m = true) := by
  constructor
  · refine (forAll_members hopen hgroup true answers m).trans ?_
    tauto
  · refine (forAll_members hopen hgroup false answers m).trans ?_
    simp

theorem all_members_twoAdapters :
    ∃ s, run (step env) (init Files.none twoAdapters) [.start groupAddress works] = some s ∧
      ((s.addAllInterfaces env fun _ => ⟨0, false⟩).socks 1).members ⟨0xefff4d4c, 3⟩ = true ∧
      ((s.dropAllInterfaces env fun _ => ⟨0, false⟩).socks 1).members ⟨0xefff4d4c, 3⟩ = false := by
  have hgroup : env.getaddrinfo groupAddress = some 0xefff4d4c := rfl
  have htaken : Taken twoAdapters.adapters 0xefff4d4c (fun _ => ⟨0, false⟩) ⟨0xefff4d4c, 3⟩ :=
    ⟨rfl, ⟨3, []⟩, .tail _ (.head _), rfl, rfl⟩
  refine ⟨_, rfl, (all_members ?_ hgroup _ _).1.mpr (.inl htaken), ?_⟩
  · decide +kernel
  · refine Bool.eq_false_of_not_eq_true fun h => ?_
    exact ((all_members (by decide +kernel) hgroup _ _).2.mp h).1 htaken

end Hbm.Membership
