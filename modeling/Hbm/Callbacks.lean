import Hbm.Closing
import Hbm.Run

/-!
The callbacks of a socket that is connected, disconnected and connected again.

The socket keeps the callbacks in its members and copies them to the event loop at the next
`connect`. `clearOutDataCb` clears the member of the other direction. So a cleared output
callback comes back, and a set input callback does not.
-/

namespace Hbm.Callbacks

open Hbm.Epoll Hbm.Handlers Hbm.Registration Hbm.Descriptors Hbm.Closing Hbm.Run

/-- The members of `SocketNonblocking` that matter for the event loop. -/
structure Socket (D : Type*) where
  event : Fd
  inDataHandler : Option D
  outDataHandler : Option D

/-- A handler in the event loop is the callback bound to the socket. -/
structure St (D : Type*) where
  sock : Socket D
  lo : EventLoop D Files

/-- How `connect` ends: without a descriptor, with an error, or with 0. -/
inductive Outcome
  | noSocket | failed | connected
  deriving DecidableEq

/-- The calls; `a`, `a₁`, `a₂` are where new entries would be allocated. -/
inductive Label (D : Type*)
  | setDataCb (dataCb : D) (a : Addr)
  | clearDataCb
  | setOutDataCb (dataCb : D) (a : Addr)
  | clearOutDataCb
  | disconnect
  | connect (o : Outcome) (a₁ a₂ : Addr)

variable {D : Type*}

/-- `m_eventLoop.addEvent` or `addOutEvent`, whose result the socket ignores. -/
def register (d : Dir) (l : EventLoop D Files) (fd : Fd) (eh : Option D) (a : Addr) :
    Option (EventLoop D Files) :=
  if ha : l.eventInfos.mem a = none then some (addHandler d l fd eh a ha).1 else none

def setDataCb (s : St D) (dataCb : D) (a : Addr) : Option (St D) :=
  (register .inp s.lo s.sock.event (some dataCb) a).map fun l =>
    { s with sock := { s.sock with inDataHandler := some dataCb }, lo := l }

def clearDataCb (s : St D) : St D :=
  { s with
    sock := { s.sock with inDataHandler := none }
    lo := (eraseEvent s.lo s.sock.event).1 }

def setOutDataCb (s : St D) (dataCb : D) (a : Addr) : Option (St D) :=
  (register .out s.lo s.sock.event (some dataCb) a).map fun l =>
    { s with sock := { s.sock with outDataHandler := some dataCb }, lo := l }

def clearOutDataCb (s : St D) : St D :=
  { s with
    sock := { s.sock with inDataHandler := none } -- not `outDataHandler`
    lo := (eraseOutEvent s.lo s.sock.event).1 }

def disconnect (s : St D) : St D :=
  if s.sock.event ≠ -1 then
    let l := { s.lo with kernel := s.lo.kernel.close s.sock.event }
    let l := (eraseEvent l s.sock.event).1
    let l := (eraseOutEvent l s.sock.event).1
    { s with sock := { s.sock with event := -1 }, lo := l }
  else { s with sock := { s.sock with event := -1 } }

/-- The old descriptor is not closed. -/
def connect (s : St D) (o : Outcome) (a₁ a₂ : Addr) : Option (St D) :=
  if o = .noSocket then some { s with sock := { s.sock with event := -1 } }
  else
    let k := s.lo.kernel.socket
    let l := { s.lo with kernel := k.1 }
    (register .inp l k.2 s.sock.inDataHandler a₁).bind fun l =>
      (register .out l k.2 s.sock.outDataHandler a₂).map fun l =>
        { s with sock := { s.sock with event := k.2 }, lo := l }

def step (s : St D) : Label D → Option (St D)
  | .setDataCb cb a => setDataCb s cb a
  | .clearDataCb => some (clearDataCb s)
  | .setOutDataCb cb a => setOutDataCb s cb a
  | .clearOutDataCb => some (clearOutDataCb s)
  | .disconnect => some (disconnect s)
  | .connect o a₁ a₂ => connect s o a₁ a₂

/-- A new socket, unconnected or on an open descriptor, on an event loop whose table is in step
with the interest set. -/
structure Starts (stopFd : Fd) (s : St D) : Prop where
  event : s.sock.event = -1 ∨ s.lo.kernel.isOpen s.sock.event = true ∧ s.sock.event ≠ stopFd
  inData : s.sock.inDataHandler = none
  outData : s.sock.outDataHandler = none
  inStep : InStep stopFd s.lo
  stop : s.lo.kernel.isOpen stopFd = true

/-! ### What the calls say, newest first -/

/-- The input callback set last, if it was not cleared since. -/
def wantedIn : List (Label D) → Option D
  | [] => none
  | .setDataCb cb _ :: _ => some cb
  | .clearDataCb :: _ => none
  | _ :: past => wantedIn past

def wantedOut : List (Label D) → Option D
  | [] => none
  | .setOutDataCb cb _ :: _ => some cb
  | .clearOutDataCb :: _ => none
  | _ :: past => wantedOut past

/-- `clearOutDataCb` was called since the last `setDataCb`. -/
def clearsOutSince : List (Label D) → Bool
  | [] => false
  | .setDataCb _ _ :: _ => false
  | .clearOutDataCb :: _ => true
  | _ :: past => clearsOutSince past

/-- The output callback set last. -/
def lastOut : List (Label D) → Option D
  | [] => none
  | .setOutDataCb cb _ :: _ => some cb
  | _ :: past => lastOut past

/-- The output was not cleared while an input callback was wanted, nor after it had been set. -/
structure Harmless (past : List (Label D)) : Prop where
  inp : (wantedIn past).isSome = true → clearsOutSince past = false
  out : ∀ cb a, .setOutDataCb cb a ∈ past → (wantedOut past).isSome = true

/-- What the event loop holds for the new descriptor is what the calls say. -/
def Survives (past : List (Label D)) (t : St D) : Prop :=
  handler t.lo.eventInfos t.sock.event .inp = wantedIn past ∧
    handler t.lo.eventInfos t.sock.event .out = wantedOut past

lemma lastOut_eq_none_iff {past : List (Label D)} :
    lastOut past = none ↔ ∀ cb a, Label.setOutDataCb cb a ∉ past := by
  induction past with
  | nil => simp [lastOut]
  | cons l past ih =>
    cases l with
    | setOutDataCb cb a =>
      exact ⟨fun h => absurd h (by simp [lastOut]), fun h => absurd List.mem_cons_self (h cb a)⟩
    | setDataCb | clearDataCb | clearOutDataCb | disconnect | connect => simp [lastOut, ih]

lemma lastOut_of_wantedOut {past : List (Label D)} {cb : D} (h : wantedOut past = some cb) :
    lastOut past = some cb := by
  induction past with
  | nil => cases h
  | cons l past ih =>
    cases l with
    | setOutDataCb cb' a => exact h
    | clearOutDataCb => cases h
    | setDataCb | clearDataCb | disconnect | connect => exact ih h

/-- The members give what the calls say exactly when the output was cleared harmlessly. -/
lemma harmless_iff {past : List (Label D)} :
    ((if clearsOutSince past then none else wantedIn past) = wantedIn past ∧
      lastOut past = wantedOut past) ↔ Harmless past := by
  constructor
  · rintro ⟨h1, h2⟩
    refine ⟨fun hin => ?_, fun cb a hm => ?_⟩
    · by_contra hc
      rw [Bool.not_eq_false] at hc
      rw [if_pos hc] at h1
      rw [← h1] at hin
      cases hin
    · rw [← h2]
      by_contra hn
      exact lastOut_eq_none_iff.mp (by simpa using hn) cb a hm
  · rintro ⟨h1, h2⟩
    constructor
    · rcases hw : wantedIn past with _ | cb
      · simp
      · rw [h1 (by rw [hw]; rfl)]
        rfl
    · rcases hw : wantedOut past with _ | cb
      · refine lastOut_eq_none_iff.mpr fun cb a hm => ?_
        have := h2 cb a hm
        rw [hw] at this
        cases this
      · exact lastOut_of_wantedOut hw

/-! ### The members -/

variable {s t : St D} {stopFd : Fd}

lemma connect_some {o : Outcome} {a₁ a₂ : Addr} (h : connect s o a₁ a₂ = some t) :
    t.sock.inDataHandler = s.sock.inDataHandler ∧
      t.sock.outDataHandler = s.sock.outDataHandler := by
  unfold connect at h
  split at h
  · cases h
    exact ⟨rfl, rfl⟩
  · obtain ⟨l, -, h⟩ := Option.bind_eq_some_iff.mp h
    obtain ⟨l', -, rfl⟩ := Option.map_eq_some_iff.mp h
    exact ⟨rfl, rfl⟩

/-- The members against the calls: the input callback is also lost when the output is cleared,
and the output callback is never cleared. -/
def MembersAre (past : List (Label D)) (s : St D) : Prop :=
  s.sock.inDataHandler = (if clearsOutSince past then none else wantedIn past) ∧
    s.sock.outDataHandler = lastOut past

lemma members_step {past : List (Label D)} {l : Label D} (hs : MembersAre past s)
    (h : step s l = some t) : MembersAre (l :: past) t := by
  obtain ⟨h1, h2⟩ := hs
  cases l with
  | setDataCb cb a =>
    obtain ⟨l', -, rfl⟩ := Option.map_eq_some_iff.mp h
    exact ⟨rfl, h2⟩
  | clearDataCb =>
    cases h
    exact ⟨by simp [wantedIn, clearDataCb], h2⟩
  | setOutDataCb cb a =>
    obtain ⟨l', -, rfl⟩ := Option.map_eq_some_iff.mp h
    exact ⟨h1, rfl⟩
  | clearOutDataCb =>
    cases h
    exact ⟨by simp [clearsOutSince, clearOutDataCb], h2⟩
  | disconnect =>
    cases h
    unfold disconnect
    split <;> exact ⟨h1, h2⟩
  | connect o a₁ a₂ =>
    obtain ⟨h3, h4⟩ := connect_some h
    exact ⟨h3.trans h1, h4.trans h2⟩

lemma members_run {ls : List (Label D)} (hs : Starts stopFd s) (h : run step s ls = some t) :
    MembersAre ls.reverse t := by
  induction ls using List.reverseRecOn generalizing t with
  | nil =>
    obtain rfl : s = t := by simpa using h
    exact ⟨hs.inData, hs.outData⟩
  | append_singleton ls l ih =>
    obtain ⟨u, hu, hl⟩ := run_snoc_some.mp h
    rw [List.reverse_append]
    exact members_step (ih hu) hl

/-! ### The event loop -/

structure Inv (stopFd : Fd) (s : St D) : Prop where
  inStep : InStep stopFd s.lo
  stop : s.lo.kernel.isOpen stopFd = true
  event : s.sock.event = -1 ∨ s.lo.kernel.isOpen s.sock.event = true ∧ s.sock.event ≠ stopFd

lemma register_some {d : Dir} {l l' : EventLoop D Files} {fd : Fd} {eh : Option D} {a : Addr}
    (h : register d l fd eh a = some l') : ∃ ha, l' = (addHandler d l fd eh a ha).1 := by
  unfold register at h
  split at h
  · next ha => cases h; exact ⟨ha, rfl⟩
  · cases h

lemma isOpen_addHandler {d : Dir} {l : EventLoop D Files} {fd : Fd} {eh : Option D} {a : Addr}
    {ha : l.eventInfos.mem a = none} (g : Fd) :
    (addHandler d l fd eh a ha).1.kernel.isOpen g = l.kernel.isOpen g := by
  rcases eh with _ | h
  · rfl
  by_cases hfd : fd = -1
  · subst hfd
    rw [addHandler_neg]
  · obtain ⟨op, p, e, infos, hr, -⟩ := addHandler_some d h ha hfd
    rw [hr]
    exact isOpen_ctl _ _ _ _ _

/-- Registering on an open descriptor keeps the two in step. -/
lemma inStep_register {d : Dir} {l l' : EventLoop D Files} {fd : Fd} {eh : Option D} {a : Addr}
    (hi : InStep stopFd l) (hopen : fd = -1 ∨ l.kernel.isOpen fd = true)
    (h : register d l fd eh a = some l') :
    InStep stopFd l' ∧ ∀ g, l'.kernel.isOpen g = l.kernel.isOpen g := by
  obtain ⟨ha, rfl⟩ := register_some h
  refine ⟨?_, fun g => isOpen_addHandler g⟩
  rcases eh with _ | cb
  · exact hi
  by_cases hfd : fd = -1
  · subst hfd
    rw [addHandler_neg]
    exact hi
  · refine inStep_addHandler hi hfd fun hns => ?_
    rw [accepts_eq, hi.sensible_add hns, hopen.resolve_left hfd]
    rfl

/-- Every registered descriptor is open, so erasures are accepted. -/
lemma inStep_erase (d : Dir) {l : EventLoop D Files} (fd : Fd) (hi : InStep stopFd l) :
    InStep stopFd (eraseHandler d l fd).1 := by
  rcases hh : handler l.eventInfos fd d with _ | cb
  · rw [eraseHandler_none hh]
    exact hi
  · refine inStep_eraseHandler hi hh fun hns => ?_
    obtain ⟨p, e, hf, -⟩ := handler_eq_some.mp hh
    obtain ⟨ev, hev, -⟩ := hi.entry hns hf
    have hopen : l.kernel.isOpen fd = true :=
      decide_eq_true (l.kernel.reg_open fd (Option.isSome_iff_exists.mpr ⟨ev, hev⟩))
    rw [accepts_eq, hi.sensible_erase hns hh, hopen]
    rfl

/-- Closed and erased in both directions, nothing is left of a descriptor. -/
lemma inStep_disconnect {l : EventLoop D Files} {fd : Fd} (hi : InStep stopFd l)
    (hne : fd ≠ stopFd) :
    InStep stopFd
      (eraseOutEvent (eraseEvent { l with kernel := l.kernel.close fd } fd).1 fd).1 := by
  have hr0 : RegKernel.reg (l.kernel.close fd) fd = none := close_reg_self
  have hr1 := reg_eraseHandler_unregistered (d := .inp)
    (l := { l with kernel := l.kernel.close fd }) hr0
  have hr1' := (congrFun hr1 fd).trans hr0
  have hr2 := reg_eraseHandler_unregistered (d := .out) hr1'
  intro k hk
  unfold eraseOutEvent eraseEvent
  rw [hr2, hr1]
  by_cases hkf : k = fd
  · subst hkf
    rw [find_eraseHandler, find_eraseHandler, without_without (hi k hk), hr0]
    trivial
  · rw [find_eraseHandler_of_ne hkf, find_eraseHandler_of_ne hkf]
    have : RegKernel.reg (l.kernel.close fd) k = RegKernel.reg l.kernel k := close_reg_of_ne hkf
    rw [this]
    exact hi k hk

lemma handler_addHandler_new {d : Dir} {l : EventLoop D Files} {fd : Fd} {eh : Option D} {a : Addr}
    {ha : l.eventInfos.mem a = none} (hneg : fd ≠ -1) (hempty : handler l.eventInfos fd d = none) :
    handler (addHandler d l fd eh a ha).1.eventInfos fd d = eh := by
  rcases eh with _ | cb
  · exact hempty
  · exact handler_addHandler_self hneg

/-- What `connect` does when it gets a descriptor. -/
lemma connect_new {o : Outcome} {a₁ a₂ : Addr} (hs : Inv stopFd s) (ho : o ≠ .noSocket)
    (h : connect s o a₁ a₂ = some t) : Inv stopFd t ∧
      handler t.lo.eventInfos t.sock.event .inp = s.sock.inDataHandler ∧
      handler t.lo.eventInfos t.sock.event .out = s.sock.outDataHandler := by
  unfold connect at h
  rw [if_neg ho] at h
  obtain ⟨l₁, h₁, h⟩ := Option.bind_eq_some_iff.mp h
  obtain ⟨l₂, h₂, rfl⟩ := Option.map_eq_some_iff.mp h
  have hfree : s.lo.kernel.isOpen s.lo.kernel.socket.2 = false := socket_free
  have hopen : s.lo.kernel.socket.1.isOpen s.lo.kernel.socket.2 = true :=
    socket_isOpen.mpr (Or.inl rfl)
  have hne : s.lo.kernel.socket.2 ≠ stopFd := by
    intro heq
    rw [heq, hs.stop] at hfree
    cases hfree
  have hneg : s.lo.kernel.socket.2 ≠ -1 := by
    intro heq
    rw [heq, not_isOpen_neg] at hopen
    cases hopen
  have hi0 : InStep stopFd { s.lo with kernel := s.lo.kernel.socket.1 } := hs.inStep
  obtain ⟨hi1, ho1⟩ := inStep_register hi0 (Or.inr hopen) h₁
  obtain ⟨hi2, ho2⟩ := inStep_register hi1 (Or.inr (by rw [ho1]; exact hopen)) h₂
  -- the new descriptor had no entry
  have hempty : ∀ d, handler s.lo.eventInfos s.lo.kernel.socket.2 d = none := by
    intro d
    have hag := (hs.inStep _ hne).isSome
    have hr : RegKernel.reg s.lo.kernel s.lo.kernel.socket.2 = none := reg_of_not_isOpen hfree
    rw [hr] at hag
    have hf : s.lo.eventInfos.find s.lo.kernel.socket.2 = none := by simpa using hag
    rw [handler, hf]
    rfl
  obtain ⟨ha₁, rfl⟩ := register_some h₁
  obtain ⟨ha₂, rfl⟩ := register_some h₂
  refine ⟨⟨hi2, ?_, Or.inr ⟨?_, hne⟩⟩, ?_, ?_⟩
  · rw [ho2, ho1]
    exact socket_isOpen.mpr (Or.inr hs.stop)
  · rw [ho2, ho1]
    exact hopen
  · rw [handler_addHandler_of_ne _ (by simp)]
    exact handler_addHandler_new hneg (hempty .inp)
  · refine handler_addHandler_new hneg ?_
    rw [handler_addHandler_of_ne _ (by simp)]
    exact hempty .out

lemma inv_step {l : Label D} (hs : Inv stopFd s) (h : step s l = some t) : Inv stopFd t := by
  have hev : s.sock.event = -1 ∨ s.lo.kernel.isOpen s.sock.event = true := hs.event.imp id And.left
  cases l with
  | setDataCb cb a =>
    obtain ⟨l', hl', rfl⟩ := Option.map_eq_some_iff.mp h
    obtain ⟨hi, ho⟩ := inStep_register hs.inStep hev hl'
    exact ⟨hi, by rw [ho]; exact hs.stop, by rw [ho]; exact hs.event⟩
  | clearDataCb =>
    cases h
    refine ⟨inStep_erase .inp _ hs.inStep, ?_, ?_⟩
    · rw [clearDataCb, eraseEvent, isOpen_eraseHandler]
      exact hs.stop
    · rw [clearDataCb, eraseEvent, isOpen_eraseHandler]
      exact hs.event
  | setOutDataCb cb a =>
    obtain ⟨l', hl', rfl⟩ := Option.map_eq_some_iff.mp h
    obtain ⟨hi, ho⟩ := inStep_register hs.inStep hev hl'
    exact ⟨hi, by rw [ho]; exact hs.stop, by rw [ho]; exact hs.event⟩
  | clearOutDataCb =>
    cases h
    refine ⟨inStep_erase .out _ hs.inStep, ?_, ?_⟩
    · rw [clearOutDataCb, eraseOutEvent, isOpen_eraseHandler]
      exact hs.stop
    · rw [clearOutDataCb, eraseOutEvent, isOpen_eraseHandler]
      exact hs.event
  | disconnect =>
    cases h
    unfold disconnect
    by_cases hneg : s.sock.event = -1
    · rw [if_neg (by simpa using hneg)]
      exact ⟨hs.inStep, hs.stop, Or.inl rfl⟩
    · rw [if_pos hneg]
      obtain ⟨-, hne⟩ := hs.event.resolve_left hneg
      refine ⟨inStep_disconnect hs.inStep hne, ?_, Or.inl rfl⟩
      simp only [eraseOutEvent, eraseEvent, isOpen_eraseHandler]
      exact close_isOpen.mpr ⟨hne.symm, hs.stop⟩
  | connect o a₁ a₂ =>
    by_cases ho : o = .noSocket
    · simp only [step, connect, if_pos ho] at h
      cases h
      exact ⟨hs.inStep, hs.stop, Or.inl rfl⟩
    · exact (connect_new hs ho h).1

/-- **Callbacks over reconnects.** After a successful `connect` the event loop holds for the new
descriptor what the calls before say if and only if the output was cleared harmlessly. -/
theorem survives_iff {ls : List (Label D)} {a₁ a₂ : Addr} {u : St D} (hs : Starts stopFd s)
    (h : run step s ls = some t) (hc : step t (.connect .connected a₁ a₂) = some u) :
    Survives ls.reverse u ↔ Harmless ls.reverse := by
  have hi : Inv stopFd t := run_inv (fun _ _ _ hi h => inv_step hi h)
    ⟨hs.inStep, hs.stop, hs.event⟩ h
  obtain ⟨-, hin, hout⟩ := connect_new hi (by decide) hc
  obtain ⟨h1, h2⟩ := members_run hs h
  rw [← harmless_iff, Survives, hin, hout, h1, h2]

/-- A new socket on a new event loop with stop descriptor 0. -/
def unconnected : St ℕ where
  sock := ⟨-1, none, none⟩
  lo := {
    events := fun _ => ⟨0, none⟩
    eventCount := 0
    eventInfos := .empty
    kernel := (Files.none.socket.1.ctl .ADD 0 (some ⟨EPOLLIN ||| EPOLLET, none⟩)).1 }

lemma starts_unconnected : Starts 0 unconnected where
  event := Or.inl rfl
  inData := rfl
  outData := rfl
  inStep := by
    intro fd hfd
    have hr : RegKernel.reg unconnected.lo.kernel fd = none := Function.update_of_ne hfd _ _
    rw [hr]
    trivial
  stop := by decide

def reconnect : List (Label ℕ) :=
  [.setDataCb 10 1, .connect .connected 1 2, .clearDataCb, .setOutDataCb 11 1, .disconnect]

theorem survives_iff_reconnect : ∃ t u, run step unconnected reconnect = some t ∧
    step t (.connect .connected 1 2) = some u ∧
    (Survives reconnect.reverse u ↔ Harmless reconnect.reverse) := by
  refine ⟨_, _, rfl, rfl, ?_⟩
  exact survives_iff starts_unconnected (show run step unconnected reconnect = some _ from rfl)
    (show step _ (.connect .connected 1 2) = some _ from rfl)

/-- Clearing the output callback of a connected socket loses its input callback. -/
theorem lost_by_clearOut : ¬ ∀ (ls : List (Label ℕ)) (t u : St ℕ) (a₁ a₂ : Addr),
    run step unconnected ls = some t → step t (.connect .connected a₁ a₂) = some u →
    Survives ls.reverse u := by
  intro h
  have := (h [.setDataCb 10 1, .clearOutDataCb] _ _ 1 2 rfl rfl).1
  cases this

end Hbm.Callbacks
