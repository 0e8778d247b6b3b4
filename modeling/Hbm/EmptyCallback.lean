import Hbm.Lifetime

/-!
An empty callback given to a socket.

The header promises that it takes the event out of the event loop. `std::bind` makes a handler of
it that is not empty, so `addEvent` registers this one and calls it. Only while there is no
descriptor, where `addEvent` refuses everything, setting an empty callback is clearing.
-/

namespace Hbm.EmptyCallback

open Hbm.Epoll Hbm.Handlers Hbm.Descriptors Hbm.Run Hbm.Lifetime
open Hbm.Callbacks (Socket register_some)

variable {D E : Type*}

/-- `setDataCb(DataCb_t())`, `setOutDataCb(DataCb_t())`. -/
def setEmpty (d : Dir) (a : Addr) : Call D :=
  match d with
  | .inp => .setDataCb none a
  | .out => .setOutDataCb none a

/-- The members with no callback for a direction. -/
def clearMember (sock : Socket D) : Dir → Socket D
  | .inp => { sock with inDataHandler := none }
  | .out => { sock with outDataHandler := none }

/-- A direction taken out of the event loop, and its callback forgotten. -/
def cleared (d : Dir) (s : St D E) : St D E :=
  { s with
    sock := clearMember s.sock d
    lo := (eraseHandler d s.lo s.sock.event).1 }

/-- For the input this is `clearDataCb`. -/
lemma call_clearDataCb (s : St D E) :
    call s .clearDataCb = some (cleared .inp s) := rfl

/-- A call in state `s` that leads to `t` clears the direction. -/
structure Clears (d : Dir) (s t : St D E) : Prop where
  /-- the call has returned: no drain calls the empty callback, which would throw -/
  returned : t.calls = s.calls
  sock : t.sock = (cleared d s).sock
  table : ∀ fd d', handler t.lo.eventInfos fd d' = handler (cleared d s).lo.eventInfos fd d'
  interest : RegKernel.reg t.lo.kernel = RegKernel.reg (cleared d s).lo.kernel
  /-- a later `connect` registers nothing for the direction -/
  later : ∀ calls r a,
    goOn t calls r a (.connectAdd d) = some { t with calls := afterAdd d :: calls }

/-- A new socket on an event loop that has no entry for the number -1. -/
structure Begins (s : St D E) : Prop extends Starts s where
  noNeg : ∀ d, handler s.lo.eventInfos (-1) d = none

/-- The number -1 has no entry. -/
def NoNeg (lo : EventLoop (Callback D E) Files) : Prop := ∀ d, handler lo.eventInfos (-1) d = none

variable {s t : St D E} {lo : EventLoop (Callback D E) Files}

lemma NoNeg.add (h : NoNeg lo) {d : Dir} {fd : Fd} (eh : Option (Callback D E)) {a : Addr}
    {ha : lo.eventInfos.mem a = none} : NoNeg (addHandler d lo fd eh a ha).1 := by
  intro d'
  by_cases hfd : fd = -1
  · subst hfd
    rw [addHandler_neg]
    exact h d'
  · rw [handler_addHandler_of_ne eh fun hk => hfd hk.1.symm]
    exact h d'

lemma NoNeg.erase (h : NoNeg lo) {d : Dir} {fd : Fd} : NoNeg (eraseHandler d lo fd).1 := by
  intro d'
  by_contra hne
  obtain ⟨g, hg⟩ := Option.ne_none_iff_exists'.mp hne
  obtain ⟨hold, -⟩ := handler_of_eraseHandler hg
  rw [h d'] at hold
  cases hold

lemma noNeg_addBound {d : Dir} {cb : Option D} {a : Addr} {registered failed : List At}
    (hs : NoNeg s.lo) (h : addBound s d cb a registered failed = some t) : NoNeg t.lo := by
  unfold addBound at h
  split at h <;> cases h
  exact hs.add _

lemma noNeg_step {l : Label D E} (hs : NoNeg s.lo) (h : step s l = some t) :
    NoNeg t.lo := by
  cases l with
  | call c =>
    simp only [step] at h
    split at h
    · cases c with
      | setDataCb cb a =>
        exact noNeg_addBound (s := { s with sock := { s.sock with inDataHandler := cb } }) hs h
      | setOutDataCb cb a =>
        exact noNeg_addBound (s := { s with sock := { s.sock with outDataHandler := cb } }) hs h
      | clearDataCb | clearOutDataCb =>
        cases h
        exact hs.erase
      | disconnect =>
        cases h
        exact hs
      | connect o => cases o <;> cases h <;> exact hs
    · cases h
  | destroy =>
    simp only [step] at h
    split at h <;> cases h
    exact hs
  | next r a =>
    simp only [step] at h
    split at h
    · cases h
    · next p calls hc =>
      cases p with
      | connectAdd d =>
        simp only [goOn] at h
        split at h
        · cases h
          exact hs
        · exact noNeg_addBound hs h
      | erase d b => cases d <;> cases h <;> exact hs.erase
      | connectDrain | setSocketOptions | connect | waitForWritable | soError | drain | close
        | reset =>
        cases h
        exact hs
  | throws =>
    simp only [step] at h
    split at h
    · cases h
    · split at h <;> cases h
      exact hs
  | otherOpen =>
    cases h
    exact hs
  | otherAdd d fd eh a =>
    simp only [step] at h
    split at h
    · cases h
    · obtain ⟨lo, hlo, rfl⟩ := Option.map_eq_some_iff.mp h
      obtain ⟨ha, rfl⟩ := register_some hlo
      exact hs.add _
  | otherErase d fd =>
    simp only [step] at h
    split at h <;> cases h
    exact hs.erase
  | otherClose fd =>
    simp only [step] at h
    split at h <;> cases h
    exact hs

lemma noNeg_run {ls : List (Label D E)} (hs : Begins s)
    (h : run step s ls = some t) : NoNeg t.lo :=
  run_inv (I := fun s => NoNeg s.lo) (fun _ _ _ hs h => noNeg_step hs h)
    (show NoNeg s.lo from hs.noNeg) h

/-! ### The call -/

variable {u : St D E} {d : Dir} {a : Addr}

/-- What setting an empty callback does: the member is cleared, and the handler made of the
callback is registered and called, or refused. -/
lemma setEmpty_some (h : step s (.call (setEmpty d a)) = some t) :
    ∃ ha, t = { s with
      sock := clearMember s.sock d
      lo := (addHandler d s.lo s.sock.event (some (.bound none)) a ha).1
      calls := if (addHandler d s.lo s.sock.event (some (.bound none)) a ha).2 = 0
        then .drain :: s.calls else s.calls } := by
  simp only [step] at h
  split at h
  · cases d <;>
    · simp only [setEmpty, call, addBound] at h
      split at h <;> cases h
      exact ⟨_, rfl⟩
  · cases h

/-- Without a descriptor nothing is registered, and there is nothing to erase. -/
lemma clears_of_neg (hs : NoNeg s.lo) (hneg : s.sock.event = -1)
    (h : step s (.call (setEmpty d a)) = some t) : Clears d s t := by
  obtain ⟨ha, rfl⟩ := setEmpty_some h
  have hadd : addHandler d s.lo s.sock.event (some (.bound none)) a ha = (s.lo, -1) := by
    rw [hneg, addHandler_neg]
  have herase : eraseHandler d s.lo s.sock.event = (s.lo, -1) := by
    rw [hneg]
    exact eraseHandler_none (hs d)
  refine ⟨by simp [hadd], rfl, fun fd d' => ?_, ?_, fun calls r b => ?_⟩
  · simp only [cleared, hadd, herase]
  · simp only [cleared, hadd, herase]
  · cases d <;> rfl

/-- With a descriptor the handler is called, or it stays in the table. -/
lemma not_clears_of_event (hne : s.sock.event ≠ -1)
    (h : step s (.call (setEmpty d a)) = some t) : ¬ Clears d s t := by
  intro hc
  obtain ⟨ha, rfl⟩ := setEmpty_some h
  have htable := hc.table s.sock.event d
  rw [handler_addHandler_self hne, cleared, handler_eraseHandler_self] at htable
  cases htable

/-- **Setting an empty callback is clearing** exactly as long as the socket has no descriptor: in
every state that a socket can reach, for either direction and whatever is registered. -/
theorem clears_iff {ls : List (Label D E)} (hs : Begins s)
    (hrun : run step s ls = some t)
    (h : step t (.call (setEmpty d a)) = some u) : Clears d t u ↔ t.sock.event = -1 := by
  constructor
  · intro hc
    by_contra hne
    exact not_clears_of_event hne h hc
  · exact fun hneg => clears_of_neg (noNeg_run hs hrun) hneg h

lemma begins_unconnected : Begins unconnected :=
  { starts_unconnected with noNeg := fun d => by cases d <;> rfl }

/-- A socket that has a callback and was never connected. -/
theorem clears_iff_unconnected : ∃ t u,
    run step unconnected [.call (.setDataCb (some 10) 1)] = some t ∧
    step t (.call (setEmpty .inp 1)) = some u ∧ t.sock.event = -1 ∧
    (Clears .inp t u ↔ t.sock.event = -1) := by
  have hrun : run step unconnected [.call (.setDataCb (some 10) 1)] = some _ := rfl
  refine ⟨_, _, hrun, rfl, rfl, ?_⟩
  exact clears_iff begins_unconnected hrun (a := 1) rfl

/-- `connect` without a callback. -/
def connects : List (Label ℕ ℕ) :=
  [.call (.connect .opened), .next .ok 1, .next .ok 1, .next .ok 1, .next .ok 1]

/-- On a connected socket the empty callback is registered, and the drain is about to call it. -/
theorem empty_called : ∃ t u, run step unconnected connects = some t ∧
    step t (.call (setEmpty .inp 1)) = some u ∧ ¬ Clears .inp t u ∧
    u.calls = [.drain] ∧ handler u.lo.eventInfos u.sock.event .inp = some (.bound none) := by
  have hrun : run step unconnected connects = some _ := rfl
  refine ⟨_, _, hrun, rfl, fun hc => ?_, rfl, rfl⟩
  have hcalls := hc.returned
  cases hcalls

end Hbm.EmptyCallback
