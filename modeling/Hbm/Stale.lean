import Hbm.Closing
import Hbm.Construct
import Hbm.Descriptions
import Hbm.Run

/-!
Closing a socket while something else refers to its open file description.

`disconnect` closes the number first, so that it cannot take the registration out of epoll any
more. The kernel does it with the last reference only, and until then the registration points to
the erased entry.
-/

namespace Hbm.Stale

open Hbm.Epoll Hbm.Handlers Hbm.Descriptions Hbm.Run Hbm.Construct

variable {H : Type*}

/-- `SocketNonblocking::disconnect`: what becomes of the event loop and of `m_event`. -/
def disconnect (l : EventLoop H OpenFiles) (event : Fd) : EventLoop H OpenFiles × Fd :=
  if event ≠ -1 then
    let l := { l with kernel := l.kernel.close event }
    let l := (eraseEvent l event).1
    ((eraseOutEvent l event).1, -1)
  else (l, -1)

/-- `stop` of the servers and the destructors of the other users of the event loop, which have no
handler for output. -/
def stop (l : EventLoop H OpenFiles) (fd : Fd) : EventLoop H OpenFiles :=
  let l := (eraseEvent l fd).1
  { l with kernel := l.kernel.close fd }

/-- The calls on any sockets of the process in any order, and what else happens. -/
inductive Label (H : Type*) where
  /-- `setDataCb`, `setOutDataCb` and what `connect` registers -/
  | add (d : Dir) (fd : Fd) (eventHandler : Option H) (a : Addr)
  /-- `clearDataCb` and `clearOutDataCb` -/
  | erase (d : Dir) (fd : Fd)
  | disconnect (event : Fd)
  | stop (fd : Fd)
  /-- `epoll_wait` reports -/
  | wait (rs : List (Fd × EpollEvent))
  | world (w : OpenFiles.World)

/-- The event loop keeps its own descriptor for itself. -/
def step (stopFd : Fd) (l : EventLoop H OpenFiles) : Label H → Option (EventLoop H OpenFiles)
  | .add d fd eventHandler a =>
    if ha : l.eventInfos.mem a = none then
      if fd = stopFd then none else some (addHandler d l fd eventHandler a ha).1
    else none
  | .erase d fd => if fd = stopFd then none else some (eraseHandler d l fd).1
  | .disconnect event => if event = stopFd then none else some (disconnect l event).1
  | .stop fd =>
    if fd = stopFd ∨ (handler l.eventInfos fd .out).isSome then none else some (stop l fd)
  | .wait rs => (Kernel.report l.kernel rs).map fun k =>
    { l with
      events := Execute.writeSlots l.events (rs.map Prod.snd)
      eventCount := rs.length
      kernel := k }
  | .world w => (Kernel.world l.kernel w).map fun k => { l with kernel := k }

/-- No registration points to an entry that is not in the table any more. -/
def Clean (l : EventLoop H OpenFiles) : Prop :=
  ∀ fd d ev p, l.kernel.entry fd d = some ev → ev.ptr = some p →
    ∃ g e, l.eventInfos.find g = some (p, e)

/-- A socket that is disconnected has no direction registered, or it has the only reference to
its description. -/
def Alone (l : EventLoop H OpenFiles) : Label H → Prop
  | .disconnect event => ∀ d, l.kernel.desc event = some d →
    l.kernel.entry event d = none ∨ l.kernel.own d - 1 + l.kernel.others d = 0
  | _ => True

/-- Every registration is one of an open number, and it points to the entry of this number, the
one of the event loop itself apart. -/
structure Inv (stopFd : Fd) (l : EventLoop H OpenFiles) : Prop where
  registered : ∀ {fd d ev}, l.kernel.entry fd d = some ev → l.kernel.desc fd = some d
  entry : ∀ {fd d ev}, l.kernel.entry fd d = some ev → fd ≠ stopFd →
    ∃ p e, ev.ptr = some p ∧ l.eventInfos.find fd = some (p, e)
  stop : ∀ {d ev}, l.kernel.entry stopFd d = some ev → ev.ptr = none
  used : ∀ {fd p e}, l.eventInfos.find fd = some (p, e) → ∃ d : Dir, (e.get d).isSome = true

variable {l t : EventLoop H OpenFiles} {stopFd fd : Fd} {d : Dir} {x : Label H}

/-! ### The operations of the event loop -/

/-- An operation on one number: for it the invariant is to be shown, and nothing else changes. -/
lemma Inv.of_one (hl : Inv stopFd l) (hfd : fd ≠ stopFd) (hdesc : t.kernel.desc = l.kernel.desc)
    (hentry : ∀ g ≠ fd, t.kernel.entry g = l.kernel.entry g)
    (hfind : ∀ g ≠ fd, t.eventInfos.find g = l.eventInfos.find g)
    (hself : ∀ {d ev}, t.kernel.entry fd d = some ev → l.kernel.desc fd = some d ∧
      ∃ p e, ev.ptr = some p ∧ t.eventInfos.find fd = some (p, e))
    (hused : ∀ {p e}, t.eventInfos.find fd = some (p, e) → ∃ d : Dir, (e.get d).isSome = true) :
    Inv stopFd t where
  registered := by
    intro g d ev h
    rw [hdesc]
    by_cases hg : g = fd
    · subst hg
      exact (hself h).1
    · rw [hentry g hg] at h
      exact hl.registered h
  entry := by
    intro g d ev h hns
    by_cases hg : g = fd
    · subst hg
      exact (hself h).2
    · rw [hentry g hg] at h
      rw [hfind g hg]
      exact hl.entry h hns
  stop := by
    intro d ev h
    rw [hentry stopFd hfd.symm] at h
    exact hl.stop h
  used := by
    intro g p e h
    by_cases hg : g = fd
    · subst hg
      exact hused h
    · rw [hfind g hg] at h
      exact hl.used h

lemma inv_add (hl : Inv stopFd l) (hfd : fd ≠ stopFd) {eh : Option H} {a : Addr}
    {ha : l.eventInfos.mem a = none} : Inv stopFd (addHandler d l fd eh a ha).1 := by
  cases eh with
  | none => exact hl
  | some h =>
    by_cases hneg : fd = -1
    · subst hneg
      rw [addHandler_neg]
      exact hl
    have hself := find_addHandler_self d h ha hneg
    obtain ⟨op, p, e, infos, hr, hc⟩ := addHandler_some d h ha hneg
    refine hl.of_one hfd ?_ (fun g hg => ?_) (fun g hg => find_addHandler_of_ne _ hg) ?_ ?_
    · rw [hr]
      exact ctl_desc
    · rw [hr]
      exact ctl_entry_of_ne hg
    · intro x ev hx
      rw [hr] at hx
      rcases ctl_entry_self hx with ⟨hdesc, hev⟩ | hold
      · -- the entry that was passed has the address of the new or the old entry of the table
        have hev' : some (eventOf d e p) = some ev := by
          rcases hc with ⟨-, rfl, -⟩ | ⟨-, rfl, -⟩
          · exact hev
          · exact hev
        cases hev'
        refine ⟨hdesc, p, e.set d (some h), rfl, ?_⟩
        rw [hself]
        rcases hc with ⟨hf, -, rfl, rfl, -⟩ | ⟨hf, -⟩
        · rw [target, hf]
          rfl
        · rw [target, hf]
          rfl
      · obtain ⟨q, f, hptr, hfind⟩ := hl.entry hold hfd
        have hgrows : ∃ f', (addHandler d l fd (some h) a ha).1.eventInfos.find fd = some (q, f') :=
          find_addHandler_grows _ hfind
        obtain ⟨f', hf'⟩ := hgrows
        exact ⟨hl.registered hold, q, f', hptr, hf'⟩
    · intro q f hf
      rw [hself] at hf
      cases hf
      exact ⟨d, by simp⟩

lemma inv_erase (hl : Inv stopFd l) (hfd : fd ≠ stopFd) : Inv stopFd (eraseHandler d l fd).1 := by
  rcases hh : handler l.eventInfos fd d with _ | h
  · rw [eraseHandler_none hh]
    exact hl
  obtain ⟨op, ev, p, e, infos, hf, he, hr, hc⟩ := eraseHandler_some hh
  have hself := find_eraseHandler_self hh hf
  refine hl.of_one hfd ?_ (fun g hg => ?_) (fun g hg => find_eraseHandler_of_ne hg) ?_ ?_
  · rw [hr]
    exact ctl_desc
  · rw [hr]
    exact ctl_entry_of_ne hg
  · intro x y hx
    rw [hself]
    rw [hr] at hx
    rcases hc with ⟨ho, rfl, rfl, -⟩ | ⟨ho, rfl, rfl, -⟩
    · rw [if_pos ho]
      rcases ctl_entry_self hx with ⟨hdesc, hy⟩ | hold
      · cases hy
        exact ⟨hdesc, p, _, rfl, rfl⟩
      · obtain ⟨q, f, hptr, hq⟩ := hl.entry hold hfd
        cases hf.symm.trans hq
        exact ⟨hl.registered hold, p, _, hptr, rfl⟩
    · -- the number is open where it is registered, so it is taken out
      exfalso
      have hdesc : l.kernel.desc fd = some x := by
        rcases ctl_entry_self hx with ⟨-, hy⟩ | hold
        · cases hy
        · exact hl.registered hold
      cases (ctl_del_entry hdesc).symm.trans hx
  · intro q f hq
    rw [hself] at hq
    split_ifs at hq with ho
    cases hq
    exact ⟨d.other, by rw [EventsHandlers.get_set_of_ne _ (Dir.other_ne d)]; exact ho⟩

/-! ### Closing -/

/-- On a number that is closed the kernel refuses to take anything out. -/
lemma kernel_erase_closed (h : l.kernel.desc fd = none) :
    (eraseHandler d l fd).1.kernel = l.kernel := by
  rcases hh : handler l.eventInfos fd d with _ | g
  · rw [eraseHandler_none hh]
  · obtain ⟨op, ev, p, e, infos, -, -, hr, -⟩ := eraseHandler_some hh
    rw [hr]
    exact ctl_closed h

lemma disconnect_kernel (hfd : fd ≠ -1) :
    (disconnect l fd).1.kernel = l.kernel.close fd := by
  unfold disconnect
  rw [if_pos hfd]
  have hclosed : (l.kernel.close fd).desc fd = none := close_desc_self
  have herase : (eraseEvent { l with kernel := l.kernel.close fd } fd).1.kernel =
      l.kernel.close fd := kernel_erase_closed hclosed
  refine (kernel_erase_closed ?_).trans herase
  rw [herase]
  exact hclosed

lemma disconnect_find_self (hfd : fd ≠ -1) (hl : Inv stopFd l) :
    (disconnect l fd).1.eventInfos.find fd = none := by
  unfold disconnect
  rw [if_pos hfd]
  dsimp only [eraseOutEvent, eraseEvent]
  rw [Closing.find_eraseHandler, Closing.find_eraseHandler]
  exact Closing.without_without_of_used fun p e h => hl.used h

lemma disconnect_find_of_ne {g : Fd} (hg : g ≠ fd) :
    (disconnect l fd).1.eventInfos.find g = l.eventInfos.find g := by
  unfold disconnect
  split_ifs
  · dsimp only [eraseOutEvent, eraseEvent]
    rw [find_eraseHandler_of_ne hg, find_eraseHandler_of_ne hg]
  · rfl

/-- A number is closed whose registrations go with it. -/
lemma inv_close (hl : Inv stopFd l) (hfd : fd ≠ stopFd) (hk : t.kernel = l.kernel.close fd)
    (hnone : ∀ d, (l.kernel.close fd).entry fd d = none)
    (hfind : ∀ g ≠ fd, t.eventInfos.find g = l.eventInfos.find g)
    (hused : ∀ {p e}, t.eventInfos.find fd = some (p, e) → ∃ d : Dir, (e.get d).isSome = true) :
    Inv stopFd t := by
  have hne : ∀ {g d ev}, t.kernel.entry g d = some ev → g ≠ fd ∧ l.kernel.entry g d = some ev := by
    intro g d ev h
    rw [hk] at h
    refine ⟨?_, close_entry_some h⟩
    rintro rfl
    cases (hnone d).symm.trans h
  constructor
  · intro g d ev h
    rw [hk, close_desc_of_ne (hne h).1]
    exact hl.registered (hne h).2
  · intro g d ev h hns
    rw [hfind g (hne h).1]
    exact hl.entry (hne h).2 hns
  · exact fun h => hl.stop (hne h).2
  · intro g p e h
    by_cases hg : g = fd
    · subst hg
      exact hused h
    · rw [hfind g hg] at h
      exact hl.used h

lemma inv_disconnect (hl : Inv stopFd l) (hfd : fd ≠ stopFd) (hok : Alone l (.disconnect fd)) :
    Inv stopFd (disconnect l fd).1 := by
  by_cases hneg : fd = -1
  · subst hneg
    exact hl
  refine inv_close hl hfd (disconnect_kernel hneg) (fun d => ?_) (fun g => disconnect_find_of_ne) ?_
  · cases he : (l.kernel.close fd).entry fd d with
    | none => rfl
    | some ev =>
      have hdesc := hl.registered (close_entry_some he)
      rw [close_entry hdesc] at he
      rcases hok d hdesc with hnone | hzero
      · rw [hnone, ite_self] at he
        exact he.symm
      · rw [if_pos hzero] at he
        exact he.symm
  · intro p e h
    cases (disconnect_find_self hneg hl).symm.trans h

/-- Where a number is taken out before it is closed, nothing is left, whoever else refers to its
description. -/
lemma inv_stop (hl : Inv stopFd l) (hfd : fd ≠ stopFd)
    (hout : (handler l.eventInfos fd .out).isSome = false) : Inv stopFd (stop l fd) := by
  have hi : Inv stopFd (eraseEvent l fd).1 := inv_erase hl hfd
  -- the one handler there can be is gone, so no entry is left, and no registration
  have hfind : (eraseEvent l fd).1.eventInfos.find fd = none := by
    unfold eraseEvent
    rw [Closing.find_eraseHandler]
    rcases hf : l.eventInfos.find fd with _ | ⟨p, e⟩
    · rfl
    · obtain ⟨d, hd⟩ := hl.used hf
      have ho : (e.get .out).isSome = false := by
        rw [handler, hf] at hout
        exact hout
      have hinp : (e.get .inp).isSome = true := by
        cases d with
        | inp => exact hd
        | out => cases ho.symm.trans hd
      simp [Closing.without, hinp, Dir.other, ho]
  refine inv_close hi hfd rfl (fun d => ?_) (fun g _ => rfl) (fun h => hi.used h)
  cases he : ((eraseEvent l fd).1.kernel.close fd).entry fd d with
  | none => rfl
  | some ev =>
    obtain ⟨p, e, -, hp⟩ := hi.entry (close_entry_some he) hfd
    cases hfind.symm.trans hp

lemma inv_step (hl : Inv stopFd l) (hok : Alone l x) (h : step stopFd l x = some t) :
    Inv stopFd t := by
  cases x with
  | add d fd eh a =>
    simp only [step] at h
    split_ifs at h with ha hfd
    cases h
    exact inv_add hl hfd
  | erase d fd =>
    simp only [step] at h
    split_ifs at h with hfd
    cases h
    exact inv_erase hl hfd
  | disconnect fd =>
    simp only [step] at h
    split_ifs at h with hfd
    cases h
    exact inv_disconnect hl hfd hok
  | stop fd =>
    simp only [step] at h
    split_ifs at h with hfd
    cases h
    push Not at hfd
    exact inv_stop hl hfd.1 (Bool.eq_false_iff.mpr hfd.2)
  | wait rs =>
    obtain ⟨k, hk, ht⟩ := Option.map_eq_some_iff.mp h
    cases ht
    have hsame : k = l.kernel := by
      change OpenFiles.report l.kernel rs = some k at hk
      unfold OpenFiles.report at hk
      split_ifs at hk
      exact (Option.some.inj hk).symm
    subst hsame
    exact ⟨hl.registered, hl.entry, hl.stop, hl.used⟩
  | world w =>
    obtain ⟨k, hk, ht⟩ := Option.map_eq_some_iff.mp h
    cases ht
    obtain ⟨hentry, hdesc⟩ := world_some hk
    exact ⟨fun h => hdesc (hl.registered (hentry h)), fun h => hl.entry (hentry h),
      fun h => hl.stop (hentry h), hl.used⟩

lemma Inv.clean (hl : Inv stopFd l) : Clean l := by
  intro fd d ev p he hp
  by_cases hfd : fd = stopFd
  · subst hfd
    cases (hl.stop he).symm.trans hp
  · obtain ⟨q, e, hq, hf⟩ := hl.entry he hfd
    cases hq.symm.trans hp
    exact ⟨fd, e, hf⟩

/-- A registration that is left over points to no entry: the one it had is erased. -/
lemma alone_of_clean (hl : Inv stopFd l) (h : step stopFd l x = some t) (ht : Clean t) :
    Alone l x := by
  cases x with
  | disconnect fd =>
    simp only [step] at h
    split_ifs at h with hfd
    cases h
    intro d hdesc
    by_contra hleft
    push Not at hleft
    obtain ⟨hentry, hcount⟩ := hleft
    obtain ⟨ev, hev⟩ := Option.ne_none_iff_exists'.mp hentry
    have hneg : fd ≠ -1 := by
      rintro rfl
      exact absurd (l.kernel.desc_lt hdesc).1 (by decide)
    obtain ⟨p, e, hp, hf⟩ := hl.entry hev hfd
    have hstale : (disconnect l fd).1.kernel.entry fd d = some ev := by
      rw [disconnect_kernel hneg, close_entry hdesc, if_neg hcount]
      exact hev
    obtain ⟨g, f, hg⟩ := ht fd d ev p hstale hp
    by_cases hgf : g = fd
    · subst hgf
      cases (disconnect_find_self hneg hl).symm.trans hg
    · rw [disconnect_find_of_ne hgf] at hg
      exact hgf (NodeMap.find_addr_inj hg hf)
  | add | erase | stop | wait | world => trivial

/-! ### Runs -/

lemma inv_construct {events : ℕ → EpollEvent} {k : OpenFiles} (hk : ∀ fd d, k.entry fd d = none)
    (h : construct events k stopFd = some l) : Inv stopFd l := by
  unfold construct at h
  dsimp only at h
  split_ifs at h
  cases h
  have hself : ∀ {d ev}, (Kernel.ctl k .ADD stopFd (some ⟨EPOLLIN ||| EPOLLET, none⟩)).1.entry
      stopFd d = some ev → k.desc stopFd = some d ∧ ev.ptr = none := by
    intro d ev he
    rcases ctl_entry_self he with ⟨hdesc, hev⟩ | hold
    · cases hev
      exact ⟨hdesc, rfl⟩
    · cases (hk stopFd d).symm.trans hold
  have hne : ∀ {fd d ev}, (Kernel.ctl k .ADD stopFd (some ⟨EPOLLIN ||| EPOLLET, none⟩)).1.entry
      fd d = some ev → fd = stopFd := by
    intro fd d ev he
    by_contra hfd
    rw [ctl_entry_of_ne hfd] at he
    cases (hk fd d).symm.trans he
  constructor
  · intro fd d ev he
    obtain rfl := hne he
    dsimp only
    rw [ctl_desc]
    exact (hself he).1
  · exact fun he hns => absurd (hne he) hns
  · exact fun he => (hself he).2
  · intro fd p e hf
    cases hf

/-- **Nothing is left of a disconnected socket** in epoll, in all states of a run of a new event
loop, exactly if every socket that is disconnected has no direction registered or has the only
reference to its open file description. -/
theorem clean_iff_alone {events : ℕ → EpollEvent} {k : OpenFiles} {ls : List (Label H)}
    (hk : ∀ fd d, k.entry fd d = none) (hl : construct events k stopFd = some l)
    (h : run (step stopFd) l ls = some t) :
    Always (step stopFd) Clean l ls ↔ Meets (step stopFd) Alone l ls :=
  always_iff_meets (fun _ _ _ => inv_step) (fun _ => Inv.clean) (fun _ _ _ => alone_of_clean)
    (inv_construct hk hl) h

/-- A process in which only the descriptor 3 for the stop event is open. -/
def onlyStop : OpenFiles where
  desc fd := if fd = 3 then some 0 else none
  own d := if d = 0 then 1 else 0
  others _ := 0
  entry _ _ := none
  next := 1
  room := true
  desc_lt := by
    intro fd d h
    split_ifs at h with hfd
    cases h
    exact ⟨hfd ▸ by decide, Nat.one_pos⟩
  entry_lt := nofun

/-- A socket with a handler for input, and a child process that inherits it. -/
def shares : List (Label ℕ) :=
  [.world (.socket 4), .add .inp 4 (some 10) 1, .world (.inherit 1)]

theorem clean_clearDataCb : ∃ l t : EventLoop ℕ OpenFiles,
    construct (fun _ => ⟨0, none⟩) onlyStop 3 = some l ∧
      run (step 3) l (shares ++ [.erase .inp 4, .disconnect 4]) = some t ∧
      Always (step 3) Clean l (shares ++ [.erase .inp 4, .disconnect 4]) := by
  have hk : ∀ fd d, onlyStop.entry fd d = none := fun _ _ => rfl
  refine ⟨_, _, rfl, rfl, (clean_iff_alone hk rfl rfl).mpr ?_⟩
  refine meets_step trivial rfl (meets_step trivial rfl (meets_step trivial rfl ?_))
  refine meets_step trivial rfl (meets_step (fun d hd => .inl ?_) rfl trivial)
  cases hd
  rfl

/-- The child still refers to the description when the socket is disconnected. -/
theorem stale_inherited : ∃ l t : EventLoop ℕ OpenFiles,
    construct (fun _ => ⟨0, none⟩) onlyStop 3 = some l ∧
      run (step 3) l (shares ++ [.disconnect 4]) = some t ∧ ¬ Clean t := by
  refine ⟨_, _, rfl, rfl, fun h => ?_⟩
  obtain ⟨g, e, hg⟩ := h 4 1 ⟨EPOLLIN ||| EPOLLET, some 1⟩ 1 rfl rfl
  have hnode := (NodeMap.find_eq_some.mp hg).1
  change Function.update (Function.update (fun _ => none) 4 (some 1)) 4 none g = some 1 at hnode
  simp at hnode

end Hbm.Stale
