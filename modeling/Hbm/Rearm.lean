import Hbm.Run
import Mathlib.Data.Int.Notation
import Mathlib.Data.List.Basic

/-!
The overlapped requests of the multicast server and of the server for TCP under Windows.

The next datagram is ordered in `receiveTelegram`, and only where there was one with data. The
next connection is accepted at the end of `process`, which an exception does not reach.
-/

namespace Hbm.Rearm

open Hbm.Run

/-! ### Requests -/

/-- The answer to an overlapped call. A request which is done at once has a completion packet
as well. -/
inductive Answer (α : Type) where
  | pending
  | done (a : α)
  | failed

def Answer.Accepted {α : Type} : Answer α → Prop
  | failed => False
  | _ => True

/-- What the kernel has to do, and the completion packets in their order. A packet is marked
until the result of its request was taken. -/
structure Requests where
  pending : ℕ
  queue : List Bool

namespace Requests

def idle : Requests := ⟨0, []⟩

/-- Requests whose result is still to come or still to be handled. -/
def outstanding (r : Requests) : ℕ := r.pending + r.queue.count true

def order {α : Type} (a : Answer α) (r : Requests) : Requests :=
  match a with
  | .pending => { r with pending := r.pending + 1 }
  | .done _ => { r with queue := r.queue ++ [true] }
  | .failed => r

def complete (r : Requests) : Option Requests :=
  if r.pending = 0 then none
  else some { pending := r.pending - 1, queue := r.queue ++ [true] }

def take (r : Requests) : Requests := { r with queue := r.queue.map fun _ => false }

def dequeue (r : Requests) : Option Requests :=
  match r.queue with
  | [] => none
  | _ :: queue => some { r with queue }

variable {α : Type} {r t : Requests} {a : Answer α}

lemma outstanding_order (ha : a.Accepted) : (r.order a).outstanding = r.outstanding + 1 := by
  cases a with
  | pending =>
    simp only [order, outstanding]
    omega
  | done _ =>
    simp only [order, outstanding, List.count_append, List.count_singleton_self]
    omega
  | failed => exact ha.elim

lemma outstanding_complete (h : r.complete = some t) : t.outstanding = r.outstanding := by
  unfold complete at h
  split_ifs at h with hpending
  cases h
  simp only [outstanding, List.count_append, List.count_singleton_self]
  omega

lemma outstanding_take : r.take.outstanding = r.pending := by
  have hcount : (r.queue.map fun _ => false).count true = 0 := by
    rw [List.count_eq_zero]
    simp
  simp only [outstanding, take, hcount, Nat.add_zero]

lemma outstanding_dequeue (h : r.dequeue = some t) :
    t.pending = r.pending ∧ t.outstanding ≤ r.outstanding ∧ r.outstanding ≤ t.outstanding + 1 := by
  obtain ⟨pending, queue⟩ := r
  cases queue with
  | nil => cases h
  | cons b queue =>
    cases h
    refine ⟨rfl, ?_⟩
    simp only [outstanding, List.count_cons]
    split_ifs <;> omega

end Requests

/-! ### The multicast server -/

inductive Control where
  | pktinfo (ifindex : ℕ)
  | ttl (n : ℤ)
  | other

structure Telegram where
  data : List UInt8
  control : List Control

/-- Whose turn it is: the event loop waits, or a packet was dequeued and the handler is to be
called, or it has returned a positive value and is called again. -/
inductive Turn where
  | waiting
  | delivered
  | again
  deriving DecidableEq

/-- The one request structure of the server with its count of bytes, and the buffers. -/
structure MulticastServer where
  requests : Requests
  internalHigh : ℕ
  received : Telegram
  turn : Turn

/-- What a call of `receiveTelegram` gives back. -/
structure Received where
  nbytes : ℤ
  data : List UInt8
  adapterIndex : ℕ
  ttl : ℤ

/-- A call of the handler: the size of its buffer, and the adapters that are found where it asks
for the adapter or its name. -/
structure Call where
  msgBufSize : ℕ
  known : Option (ℕ → Bool)

namespace MulticastServer

variable (s : MulticastServer)

/-- The kernel writes the result of a request. -/
def store (t : Telegram) : MulticastServer :=
  { s with internalHigh := t.data.length, received := t }

def orderNextMessage (a : Answer Telegram) : MulticastServer :=
  let s := { s with requests := s.requests.order a }
  match a with
  | .done t => s.store t
  | _ => s

/-- The index of the last packet info, and the last time to live. -/
def readControl (adapterIndex : ℕ) (control : List Control) : ℕ × ℤ :=
  control.foldl (fun acc c => match c with
    | .pktinfo ifindex => (ifindex, acc.2)
    | .ttl n => (acc.1, n)
    | .other => acc) (adapterIndex, 1)

/-- The overload with the index. -/
def receiveTelegram (msgBufSize adapterIndex : ℕ) (a : Answer Telegram) :
    Received × MulticastServer :=
  if s.internalHigh = 0 then (⟨-1, [], adapterIndex, 1⟩, s)
  else
    let size := min s.internalHigh msgBufSize
    let (index, ttl) := readControl adapterIndex s.received.control
    (⟨size, s.received.data.take size, index, ttl⟩,
      { s with internalHigh := 0, requests := s.requests.take }.orderNextMessage a)

/-- The overloads with the adapter and with its name look the index up. -/
def receive (c : Call) (a : Answer Telegram) : Received × MulticastServer :=
  let (r, s) := s.receiveTelegram c.msgBufSize 0 a
  match c.known with
  | none => (r, s)
  | some known =>
    if r.nbytes > 0 ∧ known r.adapterIndex = false then ({ r with nbytes := -1 }, s) else (r, s)

/-- The handler receives until a value is negative. A call that finds no data is not listed. -/
def drain : List (Call × Answer Telegram) → MulticastServer → Option MulticastServer
  | [], s => if s.internalHigh = 0 then some s else none
  | (c, a) :: rest, s =>
    if s.internalHigh = 0 then none
    else
      let (r, s) := s.receive c a
      if r.nbytes < 0 then (if rest.isEmpty then some s else none) else drain rest s

inductive Label where
  /-- A pending request is done. -/
  | arrive (t : Telegram)
  /-- The event loop takes a completion packet. -/
  | dequeue
  /-- The handler receives, and returns a value or throws. -/
  | handle (calls : List (Call × Answer Telegram)) (retval : Option ℤ)

def step (s : MulticastServer) : Label → Option MulticastServer
  | .arrive t => do
    let requests ← s.requests.complete
    return { s with requests }.store t
  | .dequeue =>
    if s.turn = .waiting then do
      let requests ← s.requests.dequeue
      return { s with requests, turn := .delivered }
    else none
  | .handle calls retval =>
    if s.turn = .waiting then none
    else do
      let s ← drain calls s
      return { s with turn := if retval.any (· > 0) then .again else .waiting }

/-- After `start`, with its request. The socket is attached to the completion port only then, so
a request which was done before, or has failed, gives no packet and no run. -/
def started : MulticastServer :=
  MulticastServer.mk .idle 0 ⟨[], []⟩ .waiting |>.orderNextMessage .pending

/-- Outside the handler exactly one request is outstanding. -/
def Armed : Prop := s.turn ≠ .delivered → s.requests.outstanding = 1

/-- The completed request, if it was the one outstanding, has data, and each request which the
handler causes is accepted. -/
def Rearms : Label → Prop
  | .handle calls _ =>
    (s.requests.outstanding = 0 → s.internalHigh ≠ 0) ∧ ∀ c ∈ calls, c.2.Accepted
  | _ => True

variable {s} {t : MulticastServer} {a : Answer Telegram} {l : Label} {ls : List Label}

/-- While a request is pending nothing is to be taken, and outside the handler one request is
outstanding. -/
structure Inv (s : MulticastServer) : Prop where
  pending : s.requests.pending ≠ 0 → s.internalHigh = 0
  le : s.requests.outstanding ≤ 1
  armed : Armed s

lemma orderNextMessage_requests : (s.orderNextMessage a).requests = s.requests.order a := by
  cases a <;> rfl

/-- A call that finds data orders the next datagram. -/
lemma receive_requests {c : Call} (h : s.internalHigh ≠ 0) :
    (s.receive c a).2 = { s with internalHigh := 0, requests := s.requests.take }.orderNextMessage a
    := by
  unfold receive receiveTelegram
  rw [if_neg h]
  dsimp only
  cases c.known with
  | none => rfl
  | some known =>
    dsimp only
    split_ifs <;> rfl

lemma receive_accepted {c : Call} (h : s.internalHigh ≠ 0) (hpending : s.requests.pending = 0)
    (ha : a.Accepted) :
    (s.receive c a).2.requests.outstanding = 1 ∧
      ((s.receive c a).2.requests.pending ≠ 0 → (s.receive c a).2.internalHigh = 0) := by
  rw [receive_requests h, orderNextMessage_requests]
  constructor
  · rw [Requests.outstanding_order ha, Requests.outstanding_take, hpending]
  · cases a with
    | pending => exact fun _ => rfl
    | done _ => exact fun hne => absurd hpending hne
    | failed => exact ha.elim

lemma receive_failed {c : Call} (h : s.internalHigh ≠ 0) (hpending : s.requests.pending = 0) :
    (s.receive c .failed).2.requests.outstanding = 0 ∧ (s.receive c .failed).2.internalHigh = 0 ∧
      (s.receive c .failed).2.requests.pending = 0 := by
  rw [receive_requests h]
  refine ⟨?_, rfl, hpending⟩
  rw [orderNextMessage_requests]
  exact Requests.outstanding_take.trans hpending

/-- The handler ends after the call, or goes on from where the call has led. -/
lemma drain_cons {c : Call} {rest : List (Call × Answer Telegram)}
    (h : drain ((c, a) :: rest) s = some t) :
    s.internalHigh ≠ 0 ∧
      ((rest = [] ∧ t = (s.receive c a).2) ∨ drain rest (s.receive c a).2 = some t) := by
  rw [drain] at h
  by_cases hhigh : s.internalHigh = 0
  · rw [if_pos hhigh] at h
    cases h
  rw [if_neg hhigh] at h
  refine ⟨hhigh, ?_⟩
  dsimp only at h
  by_cases hneg : (s.receive c a).1.nbytes < 0
  · rw [if_pos hneg] at h
    split_ifs at h with hrest
    exact .inl ⟨List.isEmpty_iff.mp hrest, (Option.some.inj h).symm⟩
  · rw [if_neg hneg] at h
    exact .inr h

/-- The end of a drained handler. -/
lemma drain_iff {calls : List (Call × Answer Telegram)} (h : drain calls s = some t)
    (hpending : s.requests.pending ≠ 0 → s.internalHigh = 0) (hle : s.requests.outstanding ≤ 1) :
    (t.requests.pending ≠ 0 → t.internalHigh = 0) ∧ t.requests.outstanding ≤ 1 ∧
      (t.requests.outstanding = 1 ↔
        (s.requests.outstanding = 0 → s.internalHigh ≠ 0) ∧ ∀ c ∈ calls, c.2.Accepted) := by
  induction calls generalizing s with
  | nil =>
    unfold drain at h
    split_ifs at h with hhigh
    cases h
    refine ⟨hpending, hle, ?_⟩
    simp only [hhigh, ne_eq, not_true_eq_false, imp_false, List.not_mem_nil, false_implies,
      implies_true, and_true]
    omega
  | cons ca rest ih =>
    obtain ⟨c, a⟩ := ca
    obtain ⟨hhigh, hnext⟩ := drain_cons h
    have hzero : s.requests.pending = 0 := by
      by_contra hne
      exact hhigh (hpending hne)
    simp only [hhigh, ne_eq, not_false_eq_true, implies_true, List.mem_cons, forall_eq_or_imp,
      true_and]
    by_cases ha : a.Accepted
    · obtain ⟨hone, hp⟩ := receive_accepted (c := c) hhigh hzero ha
      rcases hnext with ⟨rfl, rfl⟩ | hdrain
      · exact ⟨hp, Nat.le_of_eq hone, by simp [hone, ha]⟩
      · obtain ⟨hp', hle', hiff⟩ := ih hdrain hp (Nat.le_of_eq hone)
        refine ⟨hp', hle', hiff.trans ?_⟩
        simp [hone, ha]
    · obtain rfl : a = .failed := by
        cases a with
        | pending => exact absurd trivial ha
        | done _ => exact absurd trivial ha
        | failed => rfl
      obtain ⟨hout, hh, hp⟩ := receive_failed (c := c) hhigh hzero
      rcases hnext with ⟨rfl, rfl⟩ | hdrain
      · exact ⟨fun _ => hh, hout ▸ Nat.zero_le _, by simp [hout, ha]⟩
      · obtain ⟨hp', hle', hiff⟩ := ih hdrain (fun _ => hh) (hout ▸ Nat.zero_le _)
        refine ⟨hp', hle', hiff.trans ?_⟩
        simp [hout, hh, ha]

lemma step_arrive {m : Telegram} (h : step s (.arrive m) = some t) :
    ∃ r, s.requests.complete = some r ∧ t = { s with requests := r }.store m := by
  obtain ⟨r, hr, ht⟩ := Option.bind_eq_some_iff.mp h
  exact ⟨r, hr, (Option.some.inj ht).symm⟩

lemma step_dequeue (h : step s .dequeue = some t) :
    ∃ r, s.turn = .waiting ∧ s.requests.dequeue = some r ∧
      t = { s with requests := r, turn := .delivered } := by
  unfold step at h
  split_ifs at h with hturn
  obtain ⟨r, hr, ht⟩ := Option.bind_eq_some_iff.mp h
  exact ⟨r, hturn, hr, (Option.some.inj ht).symm⟩

lemma step_handle {calls : List (Call × Answer Telegram)} {retval : Option ℤ}
    (h : step s (.handle calls retval) = some t) :
    ∃ u, drain calls s = some u ∧
      t = { u with turn := if retval.any (· > 0) then .again else .waiting } := by
  unfold step at h
  split_ifs at h with hturn
  obtain ⟨u, hu, ht⟩ := Option.bind_eq_some_iff.mp h
  exact ⟨u, hu, (Option.some.inj ht).symm⟩

/-- A call of the handler ends with one request outstanding exactly if it meets the condition. -/
lemma handle_iff {calls : List (Call × Answer Telegram)} {retval : Option ℤ} (hs : Inv s)
    (h : step s (.handle calls retval) = some t) :
    (t.requests.pending ≠ 0 → t.internalHigh = 0) ∧ t.requests.outstanding ≤ 1 ∧
      (Armed t ↔ Rearms s (.handle calls retval)) := by
  obtain ⟨u, hu, rfl⟩ := step_handle h
  obtain ⟨hp, hle, hiff⟩ := drain_iff hu hs.pending hs.le
  refine ⟨hp, hle, Iff.trans ?_ hiff⟩
  have hturn : (if retval.any (· > 0) then Turn.again else .waiting) ≠ .delivered := by
    split_ifs <;> decide
  exact ⟨fun h => h hturn, fun h _ => h⟩

lemma step_inv (hs : Inv s) (hok : Rearms s l) (h : step s l = some t) : Inv t := by
  cases l with
  | arrive m =>
    obtain ⟨r, hr, rfl⟩ := step_arrive h
    have hout : r.outstanding = s.requests.outstanding := Requests.outstanding_complete hr
    refine ⟨fun hne => ?_, Nat.le_trans (Nat.le_of_eq hout) hs.le,
      fun hturn => hout.trans (hs.armed hturn)⟩
    -- the one pending request was completed, so none is pending any more
    exfalso
    have hle := hs.le
    unfold Requests.complete at hr
    split_ifs at hr with hpending
    cases hr
    simp only [store, Requests.outstanding, ne_eq] at hne hle
    omega
  | dequeue =>
    obtain ⟨r, -, hr, rfl⟩ := step_dequeue h
    obtain ⟨hp, hle, -⟩ := Requests.outstanding_dequeue hr
    exact ⟨fun hne => hs.pending (hp ▸ hne), Nat.le_trans hle hs.le, fun hturn => absurd rfl hturn⟩
  | handle calls retval =>
    obtain ⟨hp, hle, hiff⟩ := handle_iff hs h
    exact ⟨hp, hle, hiff.mpr hok⟩

lemma rearms_of_armed (hs : Inv s) (h : step s l = some t) (ht : Armed t) : Rearms s l := by
  cases l with
  | arrive _ => trivial
  | dequeue => trivial
  | handle calls retval => exact (handle_iff hs h).2.2.mp ht

lemma started_inv : Inv started := ⟨fun _ => rfl, Nat.le_refl 1, fun _ => rfl⟩

/-- Every completion is answered by a new request exactly if every step meets the condition. -/
lemma always_armed_iff (h : run step started ls = some s) :
    Always step Armed started ls ↔ Meets step Rearms started ls :=
  always_iff_meets (fun _ _ _ => step_inv) (fun _ hs => hs.armed) (fun _ _ _ => rearms_of_armed)
    started_inv h

/-- No request is outstanding, and there are no data to be taken. -/
def Silent (s : MulticastServer) : Prop := s.requests.outstanding = 0 ∧ s.internalHigh = 0

/-- A silent server stays silent, whatever packets are left over. -/
lemma run_silent (hs : Silent s) (h : run step s ls = some t) : Silent t := by
  refine run_inv (I := Silent) (fun s l t hs h => ?_) hs h
  obtain ⟨hout, hhigh⟩ := hs
  cases l with
  | arrive m =>
    obtain ⟨r, hr, -⟩ := step_arrive h
    unfold Requests.complete at hr
    split_ifs at hr with hpending
    unfold Requests.outstanding at hout
    omega
  | dequeue =>
    obtain ⟨r, -, hr, rfl⟩ := step_dequeue h
    exact ⟨Nat.eq_zero_of_le_zero (hout ▸ (Requests.outstanding_dequeue hr).2.1), hhigh⟩
  | handle calls retval =>
    obtain ⟨u, hu, rfl⟩ := step_handle h
    cases calls with
    | nil =>
      rw [drain, if_pos hhigh] at hu
      cases hu
      exact ⟨hout, hhigh⟩
    | cons ca rest => exact absurd hhigh (drain_cons hu).1

end MulticastServer

/-! ### The server for TCP -/

/-- The callback for a new connection: there may be none, and it may throw. -/
inductive AcceptCb where
  | empty
  | returns
  | throws
  deriving DecidableEq

structure TcpServer where
  requests : Requests
  acceptSocket : ℤ
  /-- The sockets that were handed over as clients. -/
  clients : List ℤ

namespace TcpServer

/-- A new socket, and the overlapped call which accepts a connection with it. -/
def prepareAccept (fd : ℤ) (a : Answer Unit) (s : TcpServer) : TcpServer :=
  { s with acceptSocket := fd, requests := s.requests.order a }

/-- The constructor of the client throws where an option is not set. -/
def acceptClient (setSocketOptions : Bool) (s : TcpServer) : Option ℤ :=
  if setSocketOptions then some s.acceptSocket else none

def process (setSocketOptions : Bool) (cb : AcceptCb) (fd : ℤ) (a : Answer Unit) (s : TcpServer) :
    TcpServer :=
  match s.acceptClient setSocketOptions with
  | none => s
  | some worker =>
    match cb with
    | .empty => s.prepareAccept fd a
    | .throws => { s with clients := s.clients ++ [worker] }
    | .returns => { s with clients := s.clients ++ [worker] }.prepareAccept fd a

inductive Label where
  /-- The pending request is done. -/
  | arrive
  /-- The event loop takes a completion packet and calls `process`. -/
  | process (setSocketOptions : Bool) (cb : AcceptCb) (fd : ℤ) (a : Answer Unit)

def step (s : TcpServer) : Label → Option TcpServer
  | .arrive => do
    let requests ← s.requests.complete
    return { s with requests }
  | .process setSocketOptions cb fd a => do
    let requests ← s.requests.dequeue
    return { s with requests }.process setSocketOptions cb fd a

/-- After `start`, with its request and the socket for it. -/
def started (fd : ℤ) : TcpServer := TcpServer.mk .idle (-1) [] |>.prepareAccept fd .pending

def Armed (s : TcpServer) : Prop := s.requests.outstanding = 1

/-- The options of the client are set, the callback does not throw, and the next request is
accepted. -/
def Rearms (_ : TcpServer) : Label → Prop
  | .arrive => True
  | .process setSocketOptions cb _ a => setSocketOptions = true ∧ cb ≠ .throws ∧ a.Accepted

/-- Every packet belongs to a request whose result was not taken. -/
structure Inv (s : TcpServer) : Prop where
  unread : ∀ b ∈ s.requests.queue, b = true
  armed : Armed s

variable {s t : TcpServer} {l : Label} {ls : List Label}

/-- The one request is taken off with its packet. -/
lemma dequeue_armed {r : Requests} (hs : Inv s) (h : s.requests.dequeue = some r) : r = .idle := by
  obtain ⟨⟨pending, queue⟩, acceptSocket, clients⟩ := s
  cases queue with
  | nil => cases h
  | cons b rest =>
    obtain rfl : b = true := hs.unread b List.mem_cons_self
    have hone : pending + (true :: rest).count true = 1 := hs.armed
    rw [List.count_cons_self] at hone
    obtain rfl : pending = 0 := by omega
    have hrest : rest = [] := by
      refine List.eq_nil_iff_forall_not_mem.mpr fun b hb => ?_
      obtain rfl : b = true := hs.unread b (List.mem_cons_of_mem _ hb)
      have := List.count_pos_iff.mpr hb
      omega
    cases h
    rw [hrest]
    rfl

lemma process_requests {o : Bool} {cb : AcceptCb} {fd : ℤ} {a : Answer Unit} :
    (s.process o cb fd a).requests =
      if o = true ∧ cb ≠ .throws then s.requests.order a else s.requests := by
  cases o with
  | false => rfl
  | true => cases cb <;> rfl

/-- `process` leaves a request behind exactly if it meets the condition. -/
lemma process_iff {o : Bool} {cb : AcceptCb} {fd : ℤ} {a : Answer Unit} (hs : Inv s)
    (h : step s (.process o cb fd a) = some t) :
    (∀ b ∈ t.requests.queue, b = true) ∧ (Armed t ↔ Rearms s (.process o cb fd a)) := by
  obtain ⟨r, hr, ht⟩ := Option.bind_eq_some_iff.mp h
  cases ht
  obtain rfl := dequeue_armed hs hr
  unfold Armed Rearms
  rw [process_requests]
  by_cases hgoes : o = true ∧ cb ≠ .throws
  · rw [if_pos hgoes]
    cases a with
    | pending => exact ⟨nofun, iff_of_true rfl ⟨hgoes.1, hgoes.2, trivial⟩⟩
    | done _ => exact ⟨by simp [Requests.order, Requests.idle],
        iff_of_true rfl ⟨hgoes.1, hgoes.2, trivial⟩⟩
    | failed => exact ⟨nofun, iff_of_false nofun fun h => h.2.2⟩
  · rw [if_neg hgoes]
    exact ⟨nofun, iff_of_false nofun fun h => hgoes ⟨h.1, h.2.1⟩⟩

lemma step_inv (hs : Inv s) (hok : Rearms s l) (h : step s l = some t) : Inv t := by
  cases l with
  | arrive =>
    obtain ⟨r, hr, ht⟩ := Option.bind_eq_some_iff.mp h
    cases ht
    refine ⟨?_, (Requests.outstanding_complete hr).trans hs.armed⟩
    unfold Requests.complete at hr
    split_ifs at hr
    cases hr
    intro b hb
    rcases List.mem_append.mp hb with hb | hb
    · exact hs.unread b hb
    · exact List.mem_singleton.mp hb
  | process o cb fd a =>
    obtain ⟨hunread, hiff⟩ := process_iff hs h
    exact ⟨hunread, hiff.mpr hok⟩

lemma rearms_of_armed (hs : Inv s) (h : step s l = some t) (ht : Armed t) : Rearms s l := by
  cases l with
  | arrive => trivial
  | process o cb fd a => exact (process_iff hs h).2.mp ht

lemma started_inv (fd : ℤ) : Inv (started fd) := ⟨nofun, rfl⟩

lemma always_armed_iff {fd : ℤ} (h : run step (started fd) ls = some t) :
    Always step Armed (started fd) ls ↔ Meets step Rearms (started fd) ls :=
  always_iff_meets (fun _ _ _ => step_inv) (fun _ hs => hs.armed) (fun _ _ _ => rearms_of_armed)
    (started_inv fd) h

end TcpServer

/-- **Every completion is followed by a new request** in a run of the multicast server exactly
if no completed datagram is empty and each request that a handler causes is accepted. In a run of
the server for TCP it is exactly if the options of every client are set, no callback throws, and
each next request is accepted. -/
theorem rearmed (fd : ℤ) :
    (∀ (ls : List MulticastServer.Label) (s : MulticastServer),
      run MulticastServer.step .started ls = some s →
      (Always MulticastServer.step MulticastServer.Armed .started ls ↔
        Meets MulticastServer.step MulticastServer.Rearms .started ls)) ∧
    ∀ (ls : List TcpServer.Label) (s : TcpServer),
      run TcpServer.step (.started fd) ls = some s →
      (Always TcpServer.step TcpServer.Armed (.started fd) ls ↔
        Meets TcpServer.step TcpServer.Rearms (.started fd) ls) :=
  ⟨fun _ _ h => MulticastServer.always_armed_iff h, fun _ _ h => TcpServer.always_armed_iff h⟩

/-- A datagram with one byte. -/
def oneByte : Telegram := ⟨[7], [.pktinfo 2]⟩

def call : Call := ⟨65536, none⟩

/-- Two datagrams are received in one call of the handler, and the packet of the second one
finds nothing. A client is accepted. -/
theorem rearmed_oneByte :
    Always MulticastServer.step MulticastServer.Armed .started
        [.arrive oneByte, .dequeue, .handle [(call, .done oneByte), (call, .pending)] (some 0),
          .dequeue, .handle [] (some 0)] ∧
      Always TcpServer.step TcpServer.Armed (.started 4)
        [.arrive, .process true .returns 5 .pending] := by
  have h := rearmed 4
  constructor
  · refine (h.1 _ _ rfl).mpr ?_
    refine meets_step trivial rfl (meets_step trivial rfl (meets_step ?_ rfl ?_))
    · exact ⟨fun _ => by decide, by simp [Answer.Accepted]⟩
    · refine meets_step trivial rfl (meets_step ?_ rfl trivial)
      exact ⟨fun hout => absurd hout (by decide), nofun⟩
  · refine (h.2 _ _ rfl).mpr ?_
    exact meets_step trivial rfl (meets_step ⟨rfl, nofun, trivial⟩ rfl trivial)

/-- An empty datagram is completed, and the multicast server never receives again. The options
of a client are not set, or the callback throws, and no next client is accepted. -/
theorem not_rearmed :
    (∃ s, run MulticastServer.step .started
        [.arrive ⟨[], []⟩, .dequeue, .handle [] (some (-1))] = some s ∧
      s.requests.outstanding = 0 ∧
      ∀ ls t, run MulticastServer.step s ls = some t → t.requests.outstanding = 0) ∧
    (∃ s, run TcpServer.step (.started 4) [.arrive, .process false .returns 5 .pending] = some s ∧
      s.requests.outstanding = 0) ∧
    ∃ s, run TcpServer.step (.started 4) [.arrive, .process true .throws 5 .pending] = some s ∧
      s.requests.outstanding = 0 :=
  ⟨⟨_, rfl, rfl, fun _ _ h => (MulticastServer.run_silent ⟨rfl, rfl⟩ h).1⟩,
    ⟨_, rfl, rfl⟩, ⟨_, rfl, rfl⟩⟩

end Hbm.Rearm
