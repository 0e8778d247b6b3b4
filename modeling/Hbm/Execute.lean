import Hbm.Handlers
import Hbm.Run

/-!
The Linux event loop as a machine: `execute` on one thread, registrations and erasures on any.

The loop thread stands somewhere in `execute`; what a callback does is up to the environment,
which may let the callback call the four operations, return any integer or throw. A successful
registration runs the new handler until it returns no more than zero, so callbacks nest: every
thread has a stack of such drains. The mutex is held from the first slot of a batch to the
last, and within an operation, which is one step.

The history `log` and the descriptors `src` behind the slots of `m_events` are not part of the
program; they are what the properties are about.
-/

namespace Hbm.Execute

open Hbm.Mask Hbm.Epoll Hbm.Handlers Hbm.Run

/-- The thread in `execute`, and all others. -/
inductive Thread
  | loop
  | other (i : ℕ)
  deriving DecidableEq

/-- A registration that is running its new handler. -/
structure Drain (H : Type*) where
  dir : Dir
  fd : Fd
  handler : H

/-- Where the loop thread stands. -/
inductive Pc
  /-- not in `execute`, which returned `result` last -/
  | out (result : Option ℤ)
  /-- in `epoll_wait` -/
  | wait
  /-- `epoll_wait` has filled `m_events` and returns `ret` -/
  | filled (ret : ℤ) (eintr : Bool)
  /-- `m_eventCount` is set, the mutex not yet taken -/
  | lock
  /-- at the head of the inner loop -/
  | slot (round n eventsLeft : ℕ)
  /-- about to test the bit of direction `d`; `p` is `pEventHandlers` -/
  | bit (round n : ℕ) (d : Dir) (p : Addr) (eventsLeft : ℕ)
  /-- the callback runs -/
  | running (round n : ℕ) (d : Dir) (p : Addr) (eventsLeft : ℕ)
  /-- a freed entry has been dereferenced: the program has no meaning any more -/
  | dangling
  deriving DecidableEq

/-- What happened, for the properties. -/
inductive Obs (H : Type*)
  /-- `epoll_wait` reported these descriptors -/
  | report (rs : List (Fd × EpollEvent))
  /-- the loop calls a handler, for the descriptor reported in the slot -/
  | invoke (round n : ℕ) (d : Dir) (fd : Fd) (h : H)
  /-- that callback returned -/
  | result (d : Dir) (fd : Fd) (r : ℤ)
  /-- a handler was put into the table -/
  | add (d : Dir) (fd : Fd) (h : H)
  /-- its drain called it and got this result -/
  | drained (d : Dir) (fd : Fd) (r : ℤ)
  /-- `addEvent` or `addOutEvent` returned -/
  | added (d : Dir) (fd : Fd) (h : Option H) (r : ℤ)
  /-- a handler was removed, and with `freed` the entry; the call returned `r` -/
  | erase (d : Dir) (fd : Fd) (freed : Bool) (r : ℤ)

structure St (H K : Type*) where
  lo : EventLoop H K
  pc : Pc
  drains : Thread → List (Drain H)
  src : ℕ → Fd
  log : List (Obs H)

/-- A call of one of the four operations; `a` is where a new entry would be allocated. -/
inductive Call (H : Type*)
  | add (d : Dir) (fd : Fd) (eventHandler : Option H) (a : Addr)
  | erase (d : Dir) (fd : Fd)

inductive Label (H W : Type*)
  /-- `execute` is called -/
  | execute
  /-- `epoll_wait` reports -/
  | fill (rs : List (Fd × EpollEvent))
  /-- `epoll_wait` fails -/
  | fail (eintr : Bool)
  /-- the next step of the loop thread inside `execute` -/
  | tau
  /-- the code running on the thread calls an operation -/
  | call (t : Thread) (c : Call H)
  /-- the callback running on the thread returns -/
  | ret (t : Thread) (r : ℤ)
  /-- the callback running on the thread throws -/
  | throws (t : Thread)
  /-- something happens to a descriptor -/
  | world (w : W)

/-- How a callback ends. -/
inductive Outcome
  | ret (r : ℤ)
  | throws
  deriving DecidableEq

variable {H K : Type*}

/-- Whether the loop thread holds the mutex. -/
def Pc.locked : Pc → Bool
  | .slot .. | .bit .. | .running .. => true
  | _ => false

/-- Whether user code, not library code, is running on the thread and can get the mutex. -/
def mayCall (s : St H K) : Thread → Bool
  | .loop => match s.pc with
    | .out _ | .running .. => true
    | _ => false
  | .other _ => !s.pc.locked

/-- The slots `epoll_wait` writes; the others keep what an earlier batch left there. -/
def writeSlots {α : Type*} (old : ℕ → α) (rs : List α) : ℕ → α := fun n => rs[n]?.getD (old n)

lemma writeSlots_map {α β : Type*} {old : ℕ → α} {rs : List β} (f : β → α) {n : ℕ}
    (hn : n < rs.length) : writeSlots old (rs.map f) n = f rs[n] := by
  simp [writeSlots, hn]

/-- After the test of one direction comes the other one, or the next slot. -/
def next (round n : ℕ) (d : Dir) (p : Addr) (eventsLeft : ℕ) : Pc :=
  match d with
  | .inp => .bit round n .out p eventsLeft
  | .out => .slot round (n + 1) eventsLeft

/-- The loop thread inside `execute`, outside callbacks and `epoll_wait`. -/
def stepTau (s : St H K) : Option (St H K) :=
  match s.pc with
  | .filled ret eintr =>
    let lo := { s.lo with eventCount := ret }
    if ret = -1 ∧ eintr = false then some { s with lo := lo, pc := .out (some ret) }
    else some { s with lo := lo, pc := .lock }
  | .lock => some { s with pc := .slot 0 0 0 }
  | .slot round n eventsLeft =>
    if (n : ℤ) < s.lo.eventCount then
      match (s.lo.events n).ptr with
      | none => some { s with pc := .out (some 0) } -- the stop event
      | some p => some { s with pc := .bit round n .inp p eventsLeft }
    else if eventsLeft = 0 then some { s with pc := .wait }
    else some { s with pc := .slot (round + 1) 0 0 }
  | .bit round n d p eventsLeft =>
    if has (s.lo.events n).events d.bit then
      match s.lo.eventInfos.mem p with
      | none => some { s with pc := .dangling }
      | some e =>
        match e.get d with
        | none => some { s with pc := next round n d p eventsLeft } -- `std::bad_function_call`
        | some h =>
          some { s with
            pc := .running round n d p eventsLeft
            log := .invoke round n d (s.src n) h :: s.log }
    else some { s with pc := next round n d p eventsLeft }
  | _ => none

/-- `m_events[n].events &= ~bit`. -/
def turnOffSlot (l : EventLoop H K) (n : ℕ) (d : Dir) : EventLoop H K :=
  let ev := { l.events n with events := clear (l.events n).events d.bit }
  { l with events := Function.update l.events n ev }

/-- A callback returns to the drain or to the dispatch that called it. -/
def stepRet (s : St H K) (t : Thread) (r : ℤ) : Option (St H K) :=
  match s.drains t with
  | f :: rest =>
    if 0 < r then some { s with log := .drained f.dir f.fd r :: s.log }
    else some { s with
      drains := Function.update s.drains t rest
      log := .added f.dir f.fd (some f.handler) 0 :: .drained f.dir f.fd r :: s.log }
  | [] =>
    match t, s.pc with
    | .loop, .running round n d p eventsLeft =>
      let log := .result d (s.src n) r :: s.log
      if 0 < r then some { s with pc := next round n d p (eventsLeft + 1), log := log }
      else
        some { s with
          lo := turnOffSlot s.lo n d
          pc := next round n d p eventsLeft
          log := log }
    | _, _ => none

/-- An exception leaves a drain for its caller; the dispatch catches and logs it. -/
def stepThrow (s : St H K) (t : Thread) : Option (St H K) :=
  match s.drains t with
  | _ :: rest => some { s with drains := Function.update s.drains t rest }
  | [] =>
    match t, s.pc with
    | .loop, .running round n d p eventsLeft =>
      some { s with pc := next round n d p eventsLeft }
    | _, _ => none

variable [Kernel K]

/-- What a registration puts into the table, also when the kernel then refuses it. -/
def stored (d : Dir) (fd : Fd) : Option H → List (Obs H)
  | none => []
  | some h => if fd = -1 then [] else [.add d fd h]

lemma mem_stored {d : Dir} {fd : Fd} {eh : Option H} {o : Obs H} :
    o ∈ stored d fd eh ↔ ∃ h, eh = some h ∧ fd ≠ -1 ∧ o = .add d fd h := by
  rcases eh with _ | h
  · simp [stored]
  · by_cases hfd : fd = -1 <;> simp [stored, hfd]

/-- One call, up to its return or to the first run of the new handler. -/
def stepCall (s : St H K) (t : Thread) : Call H → Option (St H K)
  | .add d fd eventHandler a =>
    if ha : s.lo.eventInfos.mem a = none then
      let r := addHandler d s.lo fd eventHandler a ha
      match eventHandler with
      | none => some { s with lo := r.1, log := .added d fd none r.2 :: s.log }
      | some h =>
        if r.2 = 0 then
          some { s with
            lo := r.1
            drains := Function.update s.drains t (⟨d, fd, h⟩ :: s.drains t)
            log := .add d fd h :: s.log }
        else some { s with
          lo := r.1
          log := .added d fd (some h) r.2 :: (stored d fd (some h) ++ s.log) }
    else none
  | .erase d fd =>
    let r := eraseHandler d s.lo fd
    if (handler s.lo.eventInfos fd d).isSome then
      some { s with
        lo := r.1
        log := .erase d fd (r.1.eventInfos.find fd).isNone r.2 :: s.log }
    else some s

def step (s : St H K) : Label H (Kernel.World K) → Option (St H K)
  | .execute =>
    match s.pc, s.drains .loop with
    | .out _, [] => some { s with pc := .wait }
    | _, _ => none
  | .fill rs =>
    if s.pc = .wait then
      (Kernel.report s.lo.kernel rs).map fun k => { s with
        lo := { s.lo with events := writeSlots s.lo.events (rs.map Prod.snd), kernel := k }
        pc := .filled rs.length false
        src := writeSlots s.src (rs.map Prod.fst)
        log := .report rs :: s.log }
    else none
  | .fail eintr => if s.pc = .wait then some { s with pc := .filled (-1) eintr } else none
  | .tau => stepTau s
  | .call t c => if mayCall s t then stepCall s t c else none
  | .ret t r => stepRet s t r
  | .throws t => stepThrow s t
  | .world w => (Kernel.world s.lo.kernel w).map fun k => { s with lo := { s.lo with kernel := k } }

/-! ### The steps of the loop thread, case by case -/

/-- What `stepTau` can do. -/
inductive Tau (s : St H K) : St H K → Prop
  | store (ret : ℤ) (eintr : Bool) (hpc : s.pc = .filled ret eintr) (pc : Pc)
      (hnew : (pc = .out (some ret) ∧ ret = -1) ∨ pc = .lock) :
      Tau s { s with lo := { s.lo with eventCount := ret }, pc := pc }
  | lock (hpc : s.pc = .lock) : Tau s { s with pc := .slot 0 0 0 }
  | stop (round n k : ℕ) (hpc : s.pc = .slot round n k) (hn : (n : ℤ) < s.lo.eventCount)
      (hp : (s.lo.events n).ptr = none) : Tau s { s with pc := .out (some 0) }
  | enter (round n k : ℕ) (p : Addr) (hpc : s.pc = .slot round n k)
      (hn : (n : ℤ) < s.lo.eventCount) (hp : (s.lo.events n).ptr = some p) :
      Tau s { s with pc := .bit round n .inp p k }
  | unlock (round n : ℕ) (hpc : s.pc = .slot round n 0) (hn : s.lo.eventCount ≤ n) :
      Tau s { s with pc := .wait }
  | again (round n k : ℕ) (hpc : s.pc = .slot round n k) (hn : s.lo.eventCount ≤ n)
      (hk : k ≠ 0) : Tau s { s with pc := .slot (round + 1) 0 0 }
  | skip (round n : ℕ) (d : Dir) (p : Addr) (k : ℕ) (hpc : s.pc = .bit round n d p k)
      (hb : has (s.lo.events n).events d.bit = false) : Tau s { s with pc := next round n d p k }
  | dangling (round n : ℕ) (d : Dir) (p : Addr) (k : ℕ) (hpc : s.pc = .bit round n d p k)
      (hb : has (s.lo.events n).events d.bit = true) (hm : s.lo.eventInfos.mem p = none) :
      Tau s { s with pc := .dangling }
  | empty (round n : ℕ) (d : Dir) (p : Addr) (k : ℕ) (e : EventsHandlers H)
      (hpc : s.pc = .bit round n d p k) (hb : has (s.lo.events n).events d.bit = true)
      (hm : s.lo.eventInfos.mem p = some e) (he : e.get d = none) :
      Tau s { s with pc := next round n d p k }
  | invoke (round n : ℕ) (d : Dir) (p : Addr) (k : ℕ) (e : EventsHandlers H) (h : H)
      (hpc : s.pc = .bit round n d p k) (hb : has (s.lo.events n).events d.bit = true)
      (hm : s.lo.eventInfos.mem p = some e) (he : e.get d = some h) :
      Tau s { s with pc := .running round n d p k, log := .invoke round n d (s.src n) h :: s.log }

omit [Kernel K] in
lemma stepTau_cases {s t : St H K} (h : stepTau s = some t) : Tau s t := by
  unfold stepTau at h
  split at h
  · next ret eintr hpc =>
    split at h <;> cases h
    · next hret => exact .store ret eintr hpc _ (Or.inl ⟨rfl, hret.1⟩)
    · exact .store ret eintr hpc _ (Or.inr rfl)
  · next hpc => cases h; exact .lock hpc
  · next round n k hpc =>
    split at h
    · next hn =>
      split at h <;> cases h
      · next hp => exact .stop round n k hpc hn hp
      · next p hp => exact .enter round n k p hpc hn hp
    · next hn =>
      split at h <;> cases h
      · next hk => subst hk; exact .unlock round n hpc (by omega)
      · next hk => exact .again round n k hpc (by omega) hk
  · next round n d p k hpc =>
    split at h
    · next hb =>
      split at h
      · next hm => cases h; exact .dangling round n d p k hpc hb hm
      · next e hm =>
        split at h <;> cases h
        · next he => exact .empty round n d p k e hpc hb hm he
        · next g he => exact .invoke round n d p k e g hpc hb hm he
    · next hb => cases h; exact .skip round n d p k hpc (by simpa using hb)
  · cases h

/-- What `stepRet` can do: a drain goes on or ends, a dispatched callback is served. -/
inductive Ret (s : St H K) (t : Thread) (r : ℤ) : St H K → Prop
  | again (f : Drain H) (rest : List (Drain H)) (hd : s.drains t = f :: rest) (hr : 0 < r) :
      Ret s t r { s with log := .drained f.dir f.fd r :: s.log }
  | drained (f : Drain H) (rest : List (Drain H)) (hd : s.drains t = f :: rest) (hr : r ≤ 0) :
      Ret s t r { s with
        drains := Function.update s.drains t rest
        log := .added f.dir f.fd (some f.handler) 0 :: .drained f.dir f.fd r :: s.log }
  | more (round n : ℕ) (d : Dir) (p : Addr) (k : ℕ) (hd : s.drains t = []) (ht : t = .loop)
      (hpc : s.pc = .running round n d p k) (hr : 0 < r) :
      Ret s t r { s with pc := next round n d p (k + 1), log := .result d (s.src n) r :: s.log }
  | done (round n : ℕ) (d : Dir) (p : Addr) (k : ℕ) (hd : s.drains t = []) (ht : t = .loop)
      (hpc : s.pc = .running round n d p k) (hr : r ≤ 0) :
      Ret s t r { s with
        lo := turnOffSlot s.lo n d
        pc := next round n d p k
        log := .result d (s.src n) r :: s.log }

omit [Kernel K] in
lemma stepRet_cases {s u : St H K} {t : Thread} {r : ℤ} (h : stepRet s t r = some u) :
    Ret s t r u := by
  unfold stepRet at h
  split at h
  · next f rest hd =>
    split at h
    · next hr => cases h; exact .again f rest hd hr
    · next hr => cases h; exact .drained f rest hd (by omega)
  · next hd =>
    split at h
    · next round n d p k hpc =>
      simp only at h
      split at h <;> cases h
      · next hr => exact .more round n d p k hd rfl hpc hr
      · next hr => exact .done round n d p k hd rfl hpc (by omega)
    · cases h

/-- What `stepThrow` can do. -/
inductive Throw (s : St H K) (t : Thread) : St H K → Prop
  | drain (f : Drain H) (rest : List (Drain H)) (hd : s.drains t = f :: rest) :
      Throw s t { s with drains := Function.update s.drains t rest }
  | caught (round n : ℕ) (d : Dir) (p : Addr) (k : ℕ) (hd : s.drains t = []) (ht : t = .loop)
      (hpc : s.pc = .running round n d p k) : Throw s t { s with pc := next round n d p k }

omit [Kernel K] in
lemma stepThrow_cases {s u : St H K} {t : Thread} (h : stepThrow s t = some u) :
    Throw s t u := by
  unfold stepThrow at h
  split at h
  · next f rest hd => cases h; exact .drain f rest hd
  · next hd =>
    split at h
    · next round n d p k hpc => cases h; exact .caught round n d p k hd rfl hpc
    · cases h

/-- What `stepCall` can do. -/
inductive CallStep (s : St H K) (t : Thread) : Call H → St H K → Prop
  | added (d : Dir) (fd : Fd) (h : H) (a : Addr) (ha : s.lo.eventInfos.mem a = none)
      (hr : (addHandler d s.lo fd (some h) a ha).2 = 0) :
      CallStep s t (.add d fd (some h) a) { s with
        lo := (addHandler d s.lo fd (some h) a ha).1
        drains := Function.update s.drains t (⟨d, fd, h⟩ :: s.drains t)
        log := .add d fd h :: s.log }
  | refused (d : Dir) (fd : Fd) (eh : Option H) (a : Addr) (ha : s.lo.eventInfos.mem a = none)
      (hr : (addHandler d s.lo fd eh a ha).2 ≠ 0 ∨ eh = none) :
      CallStep s t (.add d fd eh a) { s with
        lo := (addHandler d s.lo fd eh a ha).1
        log := .added d fd eh (addHandler d s.lo fd eh a ha).2 :: (stored d fd eh ++ s.log) }
  | erased (d : Dir) (fd : Fd) (h : H) (hh : handler s.lo.eventInfos fd d = some h) :
      CallStep s t (.erase d fd) { s with
        lo := (eraseHandler d s.lo fd).1
        log := .erase d fd ((eraseHandler d s.lo fd).1.eventInfos.find fd).isNone
          (eraseHandler d s.lo fd).2 :: s.log }
  | absent (d : Dir) (fd : Fd) (hh : handler s.lo.eventInfos fd d = none) :
      CallStep s t (.erase d fd) s

lemma stepCall_cases {s u : St H K} {t : Thread} {c : Call H} (h : stepCall s t c = some u) :
    CallStep s t c u := by
  cases c with
  | add d fd eh a =>
    simp only [stepCall] at h
    split at h
    · next ha =>
      rcases eh with _ | g
      · cases h; exact .refused d fd none a ha (Or.inr rfl)
      · simp only at h
        split at h
        · next hr => cases h; exact .added d fd g a ha hr
        · next hr => cases h; exact .refused d fd (some g) a ha (Or.inl hr)
    · cases h
  | erase d fd =>
    simp only [stepCall] at h
    rcases hh : handler s.lo.eventInfos fd d with _ | g
    · rw [hh, Option.isSome_none, if_neg (by decide), Option.some.injEq] at h
      subst h
      exact .absent d fd hh
    · rw [hh, Option.isSome_some, if_pos rfl, Option.some.injEq] at h
      subst h
      exact .erased d fd g hh

lemma step_call {s u : St H K} {t : Thread} {c : Call H} (h : step s (.call t c) = some u) :
    CallStep s t c u := by
  simp only [step] at h
  split at h
  · exact stepCall_cases h
  · cases h

/-! ### The other steps -/

lemma step_execute {s t : St H K} (h : step s .execute = some t) :
    ∃ r, s.pc = .out r ∧ s.drains .loop = [] ∧ t = { s with pc := .wait } := by
  simp only [step] at h
  split at h
  · next r hpc hd => cases h; exact ⟨r, hpc, hd, rfl⟩
  · cases h

lemma step_fill {s t : St H K} {rs : List (Fd × EpollEvent)} (h : step s (.fill rs) = some t) :
    s.pc = .wait ∧ ∃ k, Kernel.report s.lo.kernel rs = some k ∧ t = { s with
      lo := { s.lo with events := writeSlots s.lo.events (rs.map Prod.snd), kernel := k }
      pc := .filled rs.length false
      src := writeSlots s.src (rs.map Prod.fst)
      log := .report rs :: s.log } := by
  simp only [step] at h
  split at h
  · next hpc =>
    obtain ⟨k, hk, rfl⟩ := Option.map_eq_some_iff.mp h
    exact ⟨hpc, k, hk, rfl⟩
  · cases h

lemma step_fail {s t : St H K} {eintr : Bool} (h : step s (.fail eintr) = some t) :
    s.pc = .wait ∧ t = { s with pc := .filled (-1) eintr } := by
  simp only [step] at h
  split at h
  · next hpc => cases h; exact ⟨hpc, rfl⟩
  · cases h

lemma step_world {s t : St H K} {w : Kernel.World K} (h : step s (.world w) = some t) :
    ∃ k, Kernel.world s.lo.kernel w = some k ∧ t = { s with lo := { s.lo with kernel := k } } := by
  obtain ⟨k, hk, rfl⟩ := Option.map_eq_some_iff.mp h
  exact ⟨k, hk, rfl⟩

end Hbm.Execute
