import Hbm.Lifetime

/-!
The data callback of a socket that is about to be connected.

`connect` registers the callbacks for the new descriptor before it calls `::connect`, and a
registration calls the callback at once. What the callback does with a descriptor that is not
connected, and what it leaves of it, decides how `connect` goes on.
-/

namespace Hbm.EarlyCallback

open Hbm.Epoll Hbm.Handlers Hbm.Registration Hbm.Descriptors Hbm.Run Hbm.Lifetime
open Hbm.Callbacks (Socket register_some)

variable {D E : Type*}

/-- No `connect` is running the data callback: `::connect` is still to come there. -/
def NotEarly (s : St D E) : Prop := .connectDrain .inp ∉ s.calls

/-- The answer of the kernel with which `connect` returns -1. -/
def fails : At → Reply → Bool
  | .setSocketOptions, r | .waitForWritable, r | .soError, r => decide (r ≠ .ok)
  | .connect, r => decide (r = .error)
  | _, _ => false

/-- The step makes `connect` return -1. -/
def Fails (s : St D E) (l : Label D E) : Prop :=
  ∃ r a p calls, l = .next r a ∧ s.calls = p :: calls ∧ fails p r = true

/-- The peer is reachable: the kernel calls of `connect` succeed on a descriptor. -/
def Reachable (s : St D E) (l : Label D E) : Prop :=
  s.sock.event ≠ -1 → ¬ Fails s l

/-- The output callback that `connect` has called leaves the socket a descriptor. -/
def OutKeeps (s : St D E) (l : Label D E) : Prop :=
  ∀ r a calls, l = .next r a → s.calls = .connectDrain .out :: calls → s.sock.event ≠ -1

/-- In no state of the run `connect` is running the data callback, and no `connect` to a
reachable peer returns -1 but for the output callback. -/
def OnlyConnected (s : St D E) (ls : List (Label D E)) : Prop :=
  Always step NotEarly s ls ∧
    (Meets step OutKeeps s ls → Meets step (fun s l => Reachable s l → ¬ Fails s l) s ls)

/-- The condition on the steps: when `connect` comes to register the input, no data callback is
set, or the kernel refuses the registration. -/
def NotRegistered (s : St D E) (l : Label D E) : Prop :=
  ∀ r a calls cb, l = .next r a → s.calls = .connectAdd .inp :: calls →
    s.sock.inDataHandler = some cb →
    RegKernel.accepts s.lo.kernel (addOp s.lo.eventInfos s.sock.event) s.sock.event = false

/-! ### The stages of `connect` -/

/-- `connect` itself is at work. -/
def At.connects : At → Bool
  | .connectAdd _ | .setSocketOptions | .connect | .waitForWritable | .soError => true
  | _ => false

/-- A call in progress around another one is in a drain; and none is in the drain of the data
callback of a `connect`. -/
structure Inv (s : St D E) : Prop where
  nested : ∀ p ∈ s.calls.tail, p.drains = true
  notEarly : NotEarly s
  fresh : s.calls.head? = some (.connectAdd .inp) → s.sock.event ≠ -1

/-- And as long as the output callbacks leave the descriptor, `connect` has one. -/
structure HasEvent (s : St D E) : Prop extends Inv s where
  event : ∀ p, s.calls.head? = some p → At.connects p = true → s.sock.event ≠ -1

variable {s t : St D E} {l : Label D E} {p : At} {calls : List At}

lemma not_connects_of_drains (h : p.drains = true) : At.connects p = false := by
  cases p <;> first | rfl | cases h

/-- What a step does to the calls in progress. -/
inductive Moves (s : St D E) (l : Label D E) (t : St D E) : Prop
  /-- a call from outside or from a callback has returned at once, or others were at work -/
  | stays (hc : t.calls = s.calls) (he : callable s = true ∨ t.sock.event = s.sock.event)
  /-- such a call goes on -/
  | enters (p : At) (hcall : callable s = true) (hc : t.calls = p :: s.calls)
      (hp : p ≠ .connectDrain .inp) (hnew : At.connects p = true → t.sock.event ≠ -1)
  | returns (p : At) (calls : List At) (hc : s.calls = p :: calls) (ht : t.calls = calls)
  /-- the innermost call goes on -/
  | goes (r : Reply) (a : Addr) (p q : At) (calls : List At) (hl : l = .next r a)
      (hc : s.calls = p :: calls) (ht : t.calls = q :: calls)
      (he : t.sock.event = s.sock.event)
      (hearly : q = .connectDrain .inp → p = .connectAdd .inp ∧
        ∃ cb, s.sock.inDataHandler = some cb ∧ (s.sock.event ≠ -1 →
          RegKernel.accepts s.lo.kernel (addOp s.lo.eventInfos s.sock.event) s.sock.event = true))
      (hq : At.connects q = true → At.connects p = true ∨ ∃ d, p = .connectDrain d)
      (hadd : q ≠ .connectAdd .inp)

lemma addBound_some {d : Dir} {cb : Option D} {a : Addr} {registered failed : List At}
    (h : addBound s d cb a registered failed = some t) : ∃ ha,
      t = { s with
        lo := (addHandler d s.lo s.sock.event (some (.bound cb)) a ha).1
        calls := if (addHandler d s.lo s.sock.event (some (.bound cb)) a ha).2 = 0
          then registered else failed } := by
  unfold addBound at h
  split at h <;> cases h
  exact ⟨_, rfl⟩

/-- A registration on a descriptor is accepted by the kernel, and by nothing else. -/
lemma accepts_iff {d : Dir} {g : Callback D E} {a : Addr} {ha : s.lo.eventInfos.mem a = none}
    (hne : s.sock.event ≠ -1) : (addHandler d s.lo s.sock.event (some g) a ha).2 = 0 ↔
      RegKernel.accepts s.lo.kernel (addOp s.lo.eventInfos s.sock.event) s.sock.event = true := by
  rw [addHandler_ret hne]
  split <;> simp_all

/-- The innermost call goes on, and does not come to the data callback. -/
lemma Moves.goes_on {r : Reply} {a : Addr} (q : At) (hc : s.calls = p :: calls)
    (ht : t.calls = q :: calls) (he : t.sock.event = s.sock.event) (hlate : q ≠ .connectDrain .inp)
    (hq : At.connects q = true → At.connects p = true ∨ ∃ d, p = .connectDrain d)
    (hadd : q ≠ .connectAdd .inp) : Moves s (.next r a) t :=
  .goes r a p q calls rfl hc ht he (fun hd => absurd hd hlate) hq hadd

lemma moves_addBound {d : Dir} {cb : Option D} {a : Addr} {u : St D E} (hcall : callable s = true)
    (hu : u.calls = s.calls) (h : addBound u d cb a (.drain :: u.calls) u.calls = some t) :
    Moves s l t := by
  obtain ⟨ha, rfl⟩ := addBound_some h
  by_cases hr : (addHandler d u.lo u.sock.event (some (.bound cb)) a ha).2 = 0
  · exact .enters .drain hcall (by simp [hr, hu]) (by simp) (by simp [At.connects])
  · exact .stays (by simp [hr, hu]) (.inl hcall)

lemma moves_call {c : Call D} (hcall : callable s = true) (h : call s c = some t) :
    Moves s l t := by
  cases c with
  | setDataCb cb a =>
    exact moves_addBound (u := { s with sock := { s.sock with inDataHandler := cb } }) hcall rfl h
  | setOutDataCb cb a =>
    exact moves_addBound (u := { s with sock := { s.sock with outDataHandler := cb } }) hcall rfl h
  | clearDataCb | clearOutDataCb =>
    cases h
    exact .stays rfl (.inl hcall)
  | disconnect =>
    cases h
    by_cases hne : s.sock.event ≠ -1
    · exact .enters (.close false) hcall (by simp [disconnect, hne]) (by simp)
        (by simp [At.connects])
    · exact .enters (.reset false) hcall (by simp [disconnect, hne]) (by simp)
        (by simp [At.connects])
  | connect o =>
    cases o with
    | unresolved =>
      cases h
      exact .stays rfl (.inl hcall)
    | noSocket =>
      cases h
      exact .stays rfl (.inl hcall)
    | opened =>
      cases h
      refine .enters (.connectAdd .inp) hcall rfl (by simp) fun _ hneg => ?_
      have hopen : s.lo.kernel.socket.1.isOpen s.lo.kernel.socket.2 = true :=
        socket_isOpen.mpr (.inl rfl)
      rw [show s.lo.kernel.socket.2 = -1 from hneg, not_isOpen_neg] at hopen
      cases hopen

lemma moves_goOn {r : Reply} {a : Addr} (hc : s.calls = p :: calls)
    (h : goOn s calls r a p = some t) : Moves s (.next r a) t := by
  cases p with
  | connectAdd d =>
    have hnext : ∀ {u : St D E}, u.calls = afterAdd d :: calls → u.sock.event = s.sock.event →
        Moves s (.next r a) u := fun hu he =>
      .goes_on (afterAdd d) hc hu he (by cases d <;> simp [afterAdd]) (fun _ => .inl rfl)
        (by cases d <;> simp [afterAdd])
    simp only [goOn] at h
    split at h
    · cases h
      exact hnext rfl rfl
    · next cb hcb =>
      obtain ⟨ha, rfl⟩ := addBound_some h
      by_cases hr : (addHandler d s.lo s.sock.event (some (.bound (some cb))) a ha).2 = 0
      · refine .goes r a _ (.connectDrain d) calls rfl hc (by simp [hr]) rfl (fun hd => ?_)
          (by simp [At.connects]) (by simp)
        obtain rfl : d = .inp := At.connectDrain.inj hd
        exact ⟨rfl, cb, hcb, fun hne => (accepts_iff hne).mp hr⟩
      · exact hnext (by simp [hr]) rfl
  | connectDrain d =>
    cases h
    exact .goes_on (afterAdd d) hc rfl rfl (by cases d <;> simp [afterAdd]) (fun _ => .inr ⟨d, rfl⟩)
      (by cases d <;> simp [afterAdd])
  | setSocketOptions =>
    cases h
    by_cases hr : r = .ok
    · exact .goes_on .connect hc (by simp [hr]) rfl (by simp) (fun _ => .inl rfl) (by simp)
    · exact .returns _ calls hc (by simp [hr])
  | connect =>
    cases h
    by_cases hr : r = .inProgress
    · exact .goes_on .waitForWritable hc (by simp [hr]) rfl (by simp) (fun _ => .inl rfl) (by simp)
    · exact .returns _ calls hc (by simp [hr])
  | waitForWritable =>
    cases h
    by_cases hr : r = .ok
    · exact .goes_on .soError hc (by simp [hr]) rfl (by simp) (fun _ => .inl rfl) (by simp)
    · exact .returns _ calls hc (by simp [hr])
  | soError | drain | reset b =>
    cases h
    exact .returns _ calls hc rfl
  | close b =>
    cases h
    exact .goes_on _ hc rfl rfl (by simp) (by simp [At.connects]) (by simp)
  | erase d b =>
    cases d <;>
    · cases h
      exact .goes_on _ hc rfl rfl (by simp) (by simp [At.connects]) (by simp)

lemma moves_step (h : step s l = some t) : Moves s l t := by
  cases l with
  | call c =>
    simp only [step] at h
    split at h
    · next hcall => exact moves_call hcall h
    · cases h
  | destroy =>
    simp only [step] at h
    split at h <;> cases h
    next hidle =>
    obtain ⟨halive, hempty⟩ := Bool.and_eq_true_iff.mp hidle
    have hcall : callable s = true := by
      have hnil : s.calls = [] := by simpa using hempty
      simp [callable, halive, hnil]
    by_cases hne : s.sock.event ≠ -1
    · exact .enters (.close true) hcall (by simp [disconnect, hne]) (by simp)
        (by simp [At.connects])
    · exact .enters (.reset true) hcall (by simp [disconnect, hne]) (by simp)
        (by simp [At.connects])
  | next r a =>
    simp only [step] at h
    split at h
    · cases h
    · next p calls hc => exact moves_goOn hc h
  | throws =>
    simp only [step] at h
    split at h
    · cases h
    · next p calls hc =>
      split at h <;> cases h
      exact .returns p calls hc rfl
  | otherOpen =>
    cases h
    exact .stays rfl (.inr rfl)
  | otherAdd d fd eh a =>
    simp only [step] at h
    split at h
    · cases h
    · obtain ⟨lo, -, rfl⟩ := Option.map_eq_some_iff.mp h
      exact .stays rfl (.inr rfl)
  | otherErase d fd | otherClose fd =>
    simp only [step] at h
    split at h <;> cases h
    exact .stays rfl (.inr rfl)

/-- Where the socket can be called, no `connect` is at work. -/
lemma not_connects_of_callable (h : callable s = true) (hp : s.calls.head? = some p) :
    At.connects p = false := by
  obtain ⟨-, hdrains⟩ := Bool.and_eq_true_iff.mp h
  rw [hp] at hdrains
  exact not_connects_of_drains (by simpa using hdrains)

/-- After a return the innermost call is in a drain. -/
lemma Inv.not_connects (hi : Inv s) (hc : s.calls = p :: calls) {q : At}
    (hq : calls.head? = some q) : At.connects q = false := by
  refine not_connects_of_drains (hi.nested q ?_)
  rw [hc]
  exact List.mem_of_mem_head? hq

lemma inv_step (hi : Inv s) (hok : NotRegistered s l) (h : step s l = some t) : Inv t := by
  cases moves_step h with
  | stays hc he =>
    refine ⟨by rw [hc]; exact hi.nested, by rw [NotEarly, hc]; exact hi.notEarly, fun hhead => ?_⟩
    rw [hc] at hhead
    rcases he with hcall | he
    · have hno := not_connects_of_callable hcall hhead
      cases hno
    · rw [he]
      exact hi.fresh hhead
  | enters p hcall hc hp hnew =>
    obtain ⟨-, hdrains⟩ := Bool.and_eq_true_iff.mp hcall
    refine ⟨fun q hq => ?_, ?_, fun hhead => ?_⟩
    · rw [hc, List.tail_cons] at hq
      cases hs : s.calls with
      | nil => simp [hs] at hq
      | cons q' rest =>
        rw [hs] at hq hdrains
        rcases List.mem_cons.mp hq with rfl | hq
        · simpa using hdrains
        · exact hi.nested q (by rw [hs]; exact hq)
    · rw [NotEarly, hc]
      exact fun hm => (List.mem_cons.mp hm).elim (fun h => hp h.symm) hi.notEarly
    · rw [hc] at hhead
      cases hhead
      exact hnew rfl
  | returns p calls hc ht =>
    have hnested : ∀ q ∈ calls, q.drains = true := fun q hq => hi.nested q (by rw [hc]; exact hq)
    refine ⟨fun q hq => ?_, ?_, fun hhead => ?_⟩
    · rw [ht] at hq
      exact hnested q (List.mem_of_mem_tail hq)
    · rw [NotEarly, ht]
      exact fun hm => hi.notEarly (by rw [hc]; exact List.mem_cons_of_mem _ hm)
    · rw [ht] at hhead
      have hno := hi.not_connects hc hhead
      cases hno
  | goes r a p q calls hl hc ht he hearly hq hadd =>
    refine ⟨fun q' hq' => ?_, ?_, fun hhead => ?_⟩
    · rw [ht] at hq'
      exact hi.nested q' (by rw [hc]; exact hq')
    · rw [NotEarly, ht]
      intro hm
      rcases List.mem_cons.mp hm with hq | hm
      · -- the data callback is registered and called
        obtain ⟨rfl, cb, hcb, hacc⟩ := hearly hq.symm
        have hrefused := hok r a calls cb hl hc hcb
        rw [hacc (hi.fresh (by rw [hc]; rfl))] at hrefused
        cases hrefused
      · exact hi.notEarly (by rw [hc]; exact List.mem_cons_of_mem _ hm)
    · rw [ht] at hhead
      exact absurd (Option.some.inj hhead) hadd

/-- A registration that is accepted calls the data callback. -/
lemma notRegistered_of_notEarly (hi : Inv s) (h : step s l = some t) (ht : NotEarly t) :
    NotRegistered s l := by
  rintro r a calls cb rfl hc hcb
  have hne : s.sock.event ≠ -1 := hi.fresh (by rw [hc]; rfl)
  have hmember : member s.sock .inp = some cb := hcb
  simp only [step, hc, goOn, hmember] at h
  obtain ⟨ha, rfl⟩ := addBound_some h
  by_contra hacc
  have hr : (addHandler .inp s.lo s.sock.event (some (.bound (some cb))) _ ha).2 = 0 :=
    (accepts_iff hne).mpr (by simpa using hacc)
  simp [NotEarly, hr] at ht

/-- `connect` keeps its descriptor as long as no callback takes it. -/
lemma hasEvent_step (hi : HasEvent s) (hok : NotRegistered s l ∧ OutKeeps s l)
    (h : step s l = some t) : HasEvent t := by
  refine ⟨inv_step hi.toInv hok.1 h, fun q hhead hq => ?_⟩
  cases moves_step h with
  | stays hc he =>
    rw [hc] at hhead
    rcases he with hcall | he
    · rw [not_connects_of_callable hcall hhead] at hq
      cases hq
    · rw [he]
      exact hi.event q hhead hq
  | enters p hcall hc hp hnew =>
    rw [hc] at hhead
    cases hhead
    exact hnew hq
  | returns p calls hc ht =>
    rw [ht] at hhead
    rw [hi.toInv.not_connects hc hhead] at hq
    cases hq
  | goes r a p q' calls hl hc ht he hearly hq' hadd =>
    rw [ht] at hhead
    cases hhead
    rw [he]
    rcases hq' hq with hp | ⟨d, rfl⟩
    · exact hi.event p (by rw [hc]; rfl) hp
    · cases d with
      | inp => exact absurd (by rw [hc]; exact List.mem_cons_self) hi.notEarly
      | out => exact hok.2 r a calls hl hc

/-- With a descriptor and a reachable peer `connect` does not fail. -/
lemma HasEvent.not_fails (hi : HasEvent s) (hr : Reachable s l) : ¬ Fails s l := by
  intro hf
  obtain ⟨r, a, p, calls, rfl, hc, hfails⟩ := id hf
  have hp : At.connects p = true := by
    cases p <;> first | rfl | cases hfails
  exact hr (hi.event p (by rw [hc]; rfl) hp) hf

lemma hasEvent_start (hs : Starts s) : HasEvent s := by
  have hc := hs.calls
  refine ⟨⟨by simp [hc], by simp [NotEarly, hc], by simp [hc]⟩, by simp [hc]⟩

/-- **`connect` calls the data callback only on a connected socket** in exactly the runs in which
it never registers one: none is set when it comes there, or the kernel refuses. And in these runs
no `connect` to a reachable peer fails because of it. -/
theorem onlyConnected_iff {ls : List (Label D E)} (hs : Starts s) (h : run step s ls = some t) :
    OnlyConnected s ls ↔ Meets step NotRegistered s ls := by
  have hstart := hasEvent_start hs
  have halways : Always step NotEarly s ls ↔ Meets step NotRegistered s ls :=
    always_iff_meets (fun _ _ _ hi hok h => inv_step hi hok h) (fun _ hi => hi.notEarly)
      (fun _ _ _ hi h ht => notRegistered_of_notEarly hi h ht) hstart.toInv h
  refine ⟨fun hc => halways.mp hc.1, fun hm => ⟨halways.mpr hm, fun hkeeps => ?_⟩⟩
  have hgood : ∀ (s : St D E) (l : Label D E), HasEvent s → NotRegistered s l ∧ OutKeeps s l →
      Reachable s l → ¬ Fails s l := fun _ _ hi _ hr => hi.not_fails hr
  exact (hm.and hkeeps).imp (fun _ _ _ hi hok h => hasEvent_step hi hok h) hgood hstart

/-- `connect` without a callback, and one set after it. -/
def setAfter : List (Label ℕ ℕ) :=
  [.call (.connect .opened), .next .ok 1, .next .ok 1, .next .ok 1, .next .ok 1,
    .call (.setDataCb (some 10) 1), .next .ok 2]

theorem onlyConnected_setAfter : ∃ t, run step unconnected setAfter = some t ∧
    (OnlyConnected unconnected setAfter ↔ Meets step NotRegistered unconnected setAfter) :=
  ⟨_, rfl, onlyConnected_iff starts_unconnected rfl⟩

/-- The data callback of a `connect` to a reachable peer gets `ENOTCONN` and disconnects. -/
def disconnectsOnError : List (Label ℕ ℕ) :=
  [.call (.setDataCb (some 10) 1), .call (.connect .opened), .next .ok 1, .call .disconnect,
    .next .ok 2, .next .ok 2, .next .ok 2, .next .ok 2, .next .ok 2, .next .ok 2]

/-- The callback is called before `::connect`. Then there is no descriptor, and `connect`
fails. -/
theorem early_and_fails : ¬ OnlyConnected unconnected disconnectsOnError ∧
    ∃ t, run step unconnected disconnectsOnError = some t ∧ t.sock.event = -1 ∧
      Fails t (.next .error 2) := by
  refine ⟨fun h => ?_, _, rfl, rfl, .error, 2, .setSocketOptions, [], rfl, rfl, rfl⟩
  exact h.1 (disconnectsOnError.take 3) _ (List.take_prefix _ _) rfl List.mem_cons_self

end Hbm.EarlyCallback
