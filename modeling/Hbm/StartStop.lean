import Hbm.Descriptors
import Hbm.Run

/-!
The descriptors of a server over calls of `start` and `stop`.

`start` writes the new descriptor over the member, whatever this holds, and leaves it there if
a later call fails. So a descriptor is lost exactly where `start` is called while an earlier one
is still open. `MulticastServer::stop` puts -1 into its members; `TcpServer::stop` leaves the
number of the closed descriptor.
-/

namespace Hbm.StartStop

open Hbm.Epoll Hbm.Descriptors Hbm.Run

/-- A process; `opened` has what the server has opened and not yet closed. -/
structure Proc where
  files : Files
  opened : Fd → Bool

namespace Proc

/-- `socket` gives -1 if it fails. -/
def socket (p : Proc) (succeeds : Bool) : Proc × Fd :=
  if succeeds then
    (⟨p.files.socket.1, Function.update p.opened p.files.socket.2 true⟩, p.files.socket.2)
  else (p, -1)

/-- `close` called by the server. -/
def close (p : Proc) (fd : Fd) : Proc := ⟨p.files.close fd, Function.update p.opened fd false⟩

/-- Another part of the process gets a descriptor, or closes one it has. -/
def userOpen (p : Proc) : Proc := { p with files := p.files.socket.1 }

def userClose (p : Proc) (fd : Fd) : Option Proc :=
  if p.opened fd then none else some { p with files := p.files.close fd }

end Proc

/-! ### TcpServer -/

/-- Which of the system calls in `TcpServer::start` succeed. -/
structure TcpCalls where
  socket : Bool
  setsockopt : Bool
  bind : Bool
  listen : Bool

/-- `stopped` records that `stop` was the last call. -/
structure TcpServer where
  proc : Proc
  listeningEvent : Fd
  stopped : Bool

namespace TcpServer

/-- What the two overloads of `start` have in common. -/
def listen (s : TcpServer) (k : TcpCalls) : TcpServer × ℤ :=
  let x := s.proc.socket k.socket
  let s : TcpServer := ⟨x.1, x.2, false⟩
  if s.listeningEvent = -1 then (s, -1)
  else if !k.setsockopt then (s, -1)
  else if !k.bind then (s, -1)
  else if !k.listen then (s, -1)
  else (s, 0)

/-- `start` with a port. -/
def start (s : TcpServer) (acceptCb : Bool) (k : TcpCalls) : TcpServer × ℤ :=
  if !acceptCb then (s, -1) else s.listen k

/-- `start` with the path of a unix domain socket: the callback is not checked. -/
def startPath (s : TcpServer) (k : TcpCalls) : TcpServer × ℤ := s.listen k

def stop (s : TcpServer) : TcpServer :=
  { s with proc := s.proc.close s.listeningEvent, stopped := true }

inductive Label
  | start (acceptCb : Bool) (k : TcpCalls)
  | startPath (k : TcpCalls)
  | stop
  | userOpen
  | userClose (fd : Fd)

def step (s : TcpServer) : Label → Option TcpServer
  | .start acceptCb k => some (s.start acceptCb k).1
  | .startPath k => some (s.startPath k).1
  | .stop => some s.stop
  | .userOpen => some { s with proc := s.proc.userOpen }
  | .userClose fd => (s.proc.userClose fd).map fun p => { s with proc := p }

def init (files : Files) : TcpServer := ⟨⟨files, fun _ => false⟩, -1, false⟩

/-- `start` gets as far as `socket`. -/
def Label.opens : Label → Bool
  | .start acceptCb _ => acceptCb
  | .startPath _ => true
  | _ => false

end TcpServer

/-! ### MulticastServer -/

/-- Which of the system calls in `setupSendSocket` and `setupReceiveSocket` succeed. -/
structure MulticastCalls where
  sendSocket : Bool
  getaddrinfo : Bool
  receiveSocket : Bool
  rcvBuf : Bool
  reuseAddr : Bool
  pktInfo : Bool
  bind : Bool

structure MulticastServer where
  proc : Proc
  sendEvent : Fd
  receiveEvent : Fd
  stopped : Bool

namespace MulticastServer

/-- The result of `setMulticastLoop` is not looked at. -/
def setupSendSocket (s : MulticastServer) (k : MulticastCalls) : MulticastServer × ℤ :=
  let x := s.proc.socket k.sendSocket
  let s := { s with proc := x.1, sendEvent := x.2, stopped := false }
  if s.sendEvent < 0 then (s, -1) else (s, 0)

def setupReceiveSocket (s : MulticastServer) (k : MulticastCalls) : MulticastServer × ℤ :=
  if !k.getaddrinfo then (s, -1)
  else
    let x := s.proc.socket k.receiveSocket
    let s := { s with proc := x.1, receiveEvent := x.2 }
    if s.receiveEvent < 0 then (s, -1)
    else if !k.rcvBuf then (s, -1)
    else if !k.reuseAddr then (s, -1)
    else if !k.pktInfo then (s, -1)
    else if !k.bind then (s, -1)
    else (s, 0)

def start (s : MulticastServer) (k : MulticastCalls) : MulticastServer × ℤ :=
  let x := s.setupSendSocket k
  if x.2 < 0 then x else x.1.setupReceiveSocket k

def stop (s : MulticastServer) : MulticastServer :=
  let s := if s.sendEvent ≠ -1 then
    { s with proc := s.proc.close s.sendEvent, sendEvent := -1 } else s
  let s := if s.receiveEvent ≠ -1 then
    { s with proc := s.proc.close s.receiveEvent, receiveEvent := -1 } else s
  { s with stopped := true }

inductive Label
  | start (k : MulticastCalls)
  | stop
  | userOpen
  | userClose (fd : Fd)

def step (s : MulticastServer) : Label → Option MulticastServer
  | .start k => some (s.start k).1
  | .stop => some s.stop
  | .userOpen => some { s with proc := s.proc.userOpen }
  | .userClose fd => (s.proc.userClose fd).map fun p => { s with proc := p }

def init (files : Files) : MulticastServer := ⟨⟨files, fun _ => false⟩, -1, -1, false⟩

end MulticastServer

/-! ### What the calls do to the descriptors -/

namespace Proc

/-- What the server has opened and not closed is open. -/
def Inv (p : Proc) : Prop := ∀ fd, p.opened fd = true → p.files.isOpen fd = true

variable {p q : Proc} {fd g : Fd} {b : Bool}

lemma socket_opened :
    (p.socket b).1.opened g = true ↔ p.opened g = true ∨ b = true ∧ g = (p.socket b).2 := by
  cases b with
  | false => simp [socket]
  | true =>
    by_cases hg : g = p.files.socket.2
    · simp [socket, hg]
    · simp [socket, hg]

lemma socket_inv (hp : Inv p) : Inv (p.socket b).1 := by
  intro g hg
  rcases socket_opened.mp hg with hg | ⟨rfl, rfl⟩
  · have hopen := hp g hg
    cases b with
    | false => exact hopen
    | true => exact socket_isOpen.mpr (Or.inr hopen)
  · exact socket_isOpen.mpr (Or.inl rfl)

/-- A new descriptor is none that the server has. -/
lemma socket_ne (hp : Inv p) (hg : p.opened g = true) : (p.socket b).2 ≠ g := by
  rintro rfl
  have hopen := hp _ hg
  cases b with
  | false =>
    rw [show (p.socket false).2 = -1 from rfl, not_isOpen_neg] at hopen
    cases hopen
  | true =>
    rw [show (p.socket true).2 = p.files.socket.2 from rfl, socket_free] at hopen
    cases hopen

lemma socket_eq_neg : (p.socket b).2 = -1 ↔ b = false := by
  cases b with
  | false => exact iff_of_true rfl rfl
  | true =>
    have hnat : (0 : ℤ) ≤ p.files.socket.2 := Int.natCast_nonneg _
    refine iff_of_false (fun h => ?_) nofun
    rw [show (p.socket true).2 = p.files.socket.2 from rfl] at h
    rw [h] at hnat
    exact absurd hnat (by decide)

lemma close_opened : (p.close fd).opened g = true ↔ g ≠ fd ∧ p.opened g = true := by
  by_cases hg : g = fd
  · simp [close, hg]
  · simp [close, hg]

lemma close_inv (hp : Inv p) : Inv (p.close fd) := by
  intro g hg
  obtain ⟨hne, hg⟩ := close_opened.mp hg
  exact close_isOpen.mpr ⟨hne, hp g hg⟩

lemma userOpen_inv (hp : Inv p) : Inv p.userOpen :=
  fun g hg => socket_isOpen.mpr (Or.inr (hp g hg))

lemma userClose_inv (hp : Inv p) (h : p.userClose fd = some q) :
    q.opened = p.opened ∧ Inv q := by
  unfold userClose at h
  split at h
  · cases h
  · rename_i hno
    cases h
    refine ⟨rfl, fun g hg => close_isOpen.mpr ⟨?_, hp g hg⟩⟩
    rintro rfl
    exact hno hg

end Proc

namespace TcpServer

variable {s t : TcpServer} {l : Label} {k : TcpCalls}

/-- Nothing the server has opened is open. -/
def Closed (s : TcpServer) : Prop := ∀ fd, s.proc.opened fd = false

/-- What is open is in the member, and nothing is after `stop`. -/
def NoLeak (s : TcpServer) : Prop :=
  (∀ fd, s.proc.opened fd = true → fd = s.listeningEvent) ∧ (s.stopped = true → s.Closed)

/-- What is open is in the member, and what is in the member is open. -/
def Exact (s : TcpServer) : Prop :=
  (∀ fd, s.proc.opened fd = true ↔ fd = s.listeningEvent ∧ fd ≠ -1) ∧
    (s.stopped = true → s.Closed)

/-- `start` is called with nothing open. -/
def StartsClosed (s : TcpServer) (l : Label) : Prop := l.opens = true → s.Closed

/-- So are `start` and `stop`. -/
def CallsClosed (s : TcpServer) (l : Label) : Prop := l.opens = true ∨ l = .stop → s.Closed

lemma listen_eq (s : TcpServer) (k : TcpCalls) :
    (s.listen k).1 = ⟨(s.proc.socket k.socket).1, (s.proc.socket k.socket).2, false⟩ := by
  unfold listen
  simp only
  repeat' split
  all_goals rfl

lemma closed_iff : s.Closed ↔ ∀ fd, s.proc.opened fd ≠ true := by
  simp [Closed]

/-- What one call does. -/
lemma step_cases (h : step s l = some t) :
    (l.opens = true ∧ ∃ b, t = ⟨(s.proc.socket b).1, (s.proc.socket b).2, false⟩) ∨
      (l = .stop ∧ t = s.stop) ∨
      (l.opens = false ∧ l ≠ .stop ∧ t.listeningEvent = s.listeningEvent ∧
        t.stopped = s.stopped ∧ t.proc.opened = s.proc.opened) := by
  cases l with
  | start acceptCb k =>
    cases h
    cases acceptCb with
    | false => exact Or.inr (Or.inr ⟨rfl, nofun, rfl, rfl, rfl⟩)
    | true => exact Or.inl ⟨rfl, k.socket, listen_eq s k⟩
  | startPath k =>
    cases h
    exact Or.inl ⟨rfl, k.socket, listen_eq s k⟩
  | stop =>
    cases h
    exact Or.inr (Or.inl ⟨rfl, rfl⟩)
  | userOpen =>
    cases h
    exact Or.inr (Or.inr ⟨rfl, nofun, rfl, rfl, rfl⟩)
  | userClose fd =>
    obtain ⟨q, hq, rfl⟩ := Option.map_eq_some_iff.mp h
    unfold Proc.userClose at hq
    split at hq
    · cases hq
    · cases hq
      exact Or.inr (Or.inr ⟨rfl, nofun, rfl, rfl, rfl⟩)

lemma step_inv (hp : s.proc.Inv) (h : step s l = some t) : t.proc.Inv := by
  cases l with
  | start acceptCb k =>
    cases h
    cases acceptCb with
    | false => exact hp
    | true =>
      rw [show (s.start true k).1 = _ from listen_eq s k]
      exact Proc.socket_inv hp
  | startPath k =>
    cases h
    rw [show (s.startPath k).1 = _ from listen_eq s k]
    exact Proc.socket_inv hp
  | stop =>
    cases h
    exact Proc.close_inv hp
  | userOpen =>
    cases h
    exact Proc.userOpen_inv hp
  | userClose fd =>
    obtain ⟨q, hq, rfl⟩ := Option.map_eq_some_iff.mp h
    exact (Proc.userClose_inv hp hq).2

lemma stop_closed (h : ∀ fd, s.proc.opened fd = true → fd = s.listeningEvent) : s.stop.Closed := by
  refine closed_iff.mpr fun fd hfd => ?_
  obtain ⟨hne, hfd⟩ := Proc.close_opened.mp hfd
  exact hne (h fd hfd)

lemma noLeak_step (hs : s.NoLeak) (hl : StartsClosed s l) (h : step s l = some t) : t.NoLeak := by
  rcases step_cases h with ⟨hopens, b, rfl⟩ | ⟨-, rfl⟩ | ⟨-, -, hmember, hstopped, hopened⟩
  · refine ⟨fun fd hfd => ?_, nofun⟩
    rcases Proc.socket_opened.mp hfd with hfd | ⟨-, heq⟩
    · exact absurd hfd (closed_iff.mp (hl hopens) fd)
    · exact heq
  · have hclosed := stop_closed hs.1
    exact ⟨fun fd hfd => absurd hfd (closed_iff.mp hclosed fd), fun _ => hclosed⟩
  · unfold NoLeak Closed
    rw [hmember, hstopped, hopened]
    exact hs

/-- A descriptor that is open when `start` opens another one is not in the member any more. -/
lemma startsClosed_of_noLeak (hp : s.proc.Inv) (h : step s l = some t)
    (ht : ∀ fd, t.proc.opened fd = true → fd = t.listeningEvent) : StartsClosed s l := by
  intro hopens
  refine closed_iff.mpr fun fd hfd => ?_
  rcases step_cases h with ⟨-, b, rfl⟩ | ⟨rfl, -⟩ | ⟨hno, -⟩
  · exact Proc.socket_ne hp hfd (ht fd (Proc.socket_opened.mpr (Or.inl hfd))).symm
  · cases hopens
  · rw [hopens] at hno
    cases hno

lemma exact_step (hs : s.Exact) (hl : CallsClosed s l) (h : step s l = some t) : t.Exact := by
  rcases step_cases h with ⟨hopens, b, rfl⟩ | ⟨hstop, rfl⟩ | ⟨-, -, hmember, hstopped, hopened⟩
  · refine ⟨fun fd => ?_, nofun⟩
    have hno := closed_iff.mp (hl (Or.inl hopens)) fd
    rw [Proc.socket_opened, or_iff_right hno]
    constructor
    · rintro ⟨rfl, rfl⟩
      exact ⟨rfl, fun hneg => absurd (Proc.socket_eq_neg.mp hneg) nofun⟩
    · rintro ⟨rfl, hne⟩
      refine ⟨?_, rfl⟩
      by_contra hb
      exact hne (Proc.socket_eq_neg.mpr (Bool.not_eq_true _ ▸ hb))
  · have hclosed := closed_iff.mp (hl (Or.inr hstop))
    have hneg : s.listeningEvent = -1 := by
      by_contra hne
      exact hclosed _ ((hs.1 _).mpr ⟨rfl, hne⟩)
    have hclosed' := stop_closed fun fd hfd => ((hs.1 fd).mp hfd).1
    refine ⟨fun fd => iff_of_false (closed_iff.mp hclosed' fd) ?_, fun _ => hclosed'⟩
    rintro ⟨rfl, hne⟩
    exact hne hneg
  · unfold Exact Closed
    rw [hmember, hstopped, hopened]
    exact hs

lemma callsClosed_of_exact (hp : s.proc.Inv) (hs : s.Exact) (h : step s l = some t)
    (ht : t.Exact) : CallsClosed s l := by
  rintro (hopens | rfl)
  · exact startsClosed_of_noLeak hp h (fun fd hfd => ((ht.1 fd).mp hfd).1) hopens
  · cases h
    refine closed_iff.mpr fun fd hfd => ?_
    -- the member keeps the number that has been closed
    obtain ⟨rfl, hne⟩ := (hs.1 fd).mp hfd
    exact (Proc.close_opened.mp ((ht.1 s.listeningEvent).mpr ⟨rfl, hne⟩)).1 rfl

lemma init_noLeak (files : Files) : (init files).NoLeak := ⟨nofun, nofun⟩

/-- Nothing is lost exactly when every `start` is called with nothing open. -/
lemma noLeak_iff {files : Files} {ls : List Label} (h : run step (init files) ls = some s) :
    Always step NoLeak (init files) ls ↔ Meets step StartsClosed (init files) ls := by
  exact always_iff_meets (I := fun s => s.NoLeak ∧ s.proc.Inv)
    (fun s l t hi hl ht => ⟨noLeak_step hi.1 hl ht, step_inv hi.2 ht⟩) (fun s hi => hi.1)
    (fun s l t hi ht hP => startsClosed_of_noLeak hi.2 ht hP.1) ⟨init_noLeak files, nofun⟩ h

/-- The member is exact if, besides, nothing is open where `stop` is called. -/
lemma exact_iff {files : Files} {ls : List Label} (h : run step (init files) ls = some s) :
    Always step Exact (init files) ls ↔ Meets step CallsClosed (init files) ls := by
  refine always_iff_meets (I := fun s => s.Exact ∧ s.proc.Inv)
    (fun s l t hi hl ht => ⟨exact_step hi.1 hl ht, step_inv hi.2 ht⟩) (fun s hi => hi.1)
    (fun s l t hi ht hP => callsClosed_of_exact hi.2 hi.1 ht hP) ?_ h
  exact ⟨⟨fun fd => iff_of_false nofun fun hfd => hfd.2 hfd.1, nofun⟩, nofun⟩

end TcpServer

namespace MulticastServer

variable {s t : MulticastServer} {l : Label} {k : MulticastCalls}

def Closed (s : MulticastServer) : Prop := ∀ fd, s.proc.opened fd = false

/-- What is open is in the members, what is in the members is open, and nothing is after `stop`. -/
def Exact (s : MulticastServer) : Prop :=
  (∀ fd, s.proc.opened fd = true ↔ (fd = s.sendEvent ∨ fd = s.receiveEvent) ∧ fd ≠ -1) ∧
    (s.stopped = true → s.Closed)

/-- `start` is called with nothing open. -/
def StartsClosed (s : MulticastServer) (l : Label) : Prop := ∀ k, l = .start k → s.Closed

structure Inv (s : MulticastServer) : Prop where
  exact : s.Exact
  proc : s.proc.Inv
  /-- the send socket is made first -/
  receive : s.receiveEvent ≠ -1 → s.sendEvent ≠ -1 ∧ s.sendEvent ≠ s.receiveEvent

lemma closed_iff : s.Closed ↔ ∀ fd, s.proc.opened fd ≠ true := by
  simp [Closed]

lemma setupReceiveSocket_eq (s : MulticastServer) (k : MulticastCalls) :
    (s.setupReceiveSocket k).1 =
      if k.getaddrinfo then
        { s with
          proc := (s.proc.socket k.receiveSocket).1
          receiveEvent := (s.proc.socket k.receiveSocket).2 }
      else s := by
  unfold setupReceiveSocket
  cases k.getaddrinfo with
  | false => rfl
  | true =>
    simp only
    repeat' split
    all_goals first | rfl | contradiction

lemma setupSendSocket_eq (s : MulticastServer) (k : MulticastCalls) :
    s.setupSendSocket k =
      ({ s with
          proc := (s.proc.socket k.sendSocket).1
          sendEvent := (s.proc.socket k.sendSocket).2
          stopped := false },
        if k.sendSocket then 0 else -1) := by
  unfold setupSendSocket
  cases k.sendSocket with
  | false => rfl
  | true =>
    have hnat : ¬ (s.proc.socket true).2 < 0 := Int.not_lt.mpr (Int.natCast_nonneg _)
    simp only [if_neg hnat, if_true]

/-- The sockets `start` makes; the calls after them only decide what it returns. -/
lemma start_eq (s : MulticastServer) (k : MulticastCalls) :
    (s.start k).1 =
      if k.sendSocket && k.getaddrinfo then
        ⟨((s.proc.socket k.sendSocket).1.socket k.receiveSocket).1, (s.proc.socket k.sendSocket).2,
          ((s.proc.socket k.sendSocket).1.socket k.receiveSocket).2, false⟩
      else
        ⟨(s.proc.socket k.sendSocket).1, (s.proc.socket k.sendSocket).2, s.receiveEvent,
          false⟩ := by
  unfold start
  rw [setupSendSocket_eq]
  cases k.sendSocket with
  | false => rfl
  | true =>
    simp only [if_true, Int.lt_irrefl, if_false, setupReceiveSocket_eq, Bool.true_and]

lemma stop_opened {g : Fd} : s.stop.proc.opened g = true ↔
    s.proc.opened g = true ∧ (s.sendEvent ≠ -1 → g ≠ s.sendEvent) ∧
      (s.receiveEvent ≠ -1 → g ≠ s.receiveEvent) := by
  unfold stop
  by_cases hsend : s.sendEvent = -1 <;> by_cases hrecv : s.receiveEvent = -1 <;>
    simp [hsend, hrecv, Proc.close_opened, and_assoc, and_comm, and_left_comm]

lemma stop_closed (hs : s.Exact) : s.stop.Closed := by
  refine closed_iff.mpr fun fd hfd => ?_
  obtain ⟨hopen, hsend, hrecv⟩ := stop_opened.mp hfd
  obtain ⟨rfl | rfl, hne⟩ := (hs.1 fd).mp hopen
  · exact hsend hne rfl
  · exact hrecv hne rfl

lemma stop_inv (hi : Inv s) : Inv s.stop := by
  have hclosed := stop_closed hi.exact
  have hmembers : s.stop.sendEvent = -1 ∧ s.stop.receiveEvent = -1 := by
    unfold stop
    by_cases hsend : s.sendEvent = -1 <;> by_cases hrecv : s.receiveEvent = -1 <;>
      simp [hsend, hrecv]
  refine ⟨⟨fun fd => iff_of_false (closed_iff.mp hclosed fd) ?_, fun _ => hclosed⟩, ?_, ?_⟩
  · rw [hmembers.1, hmembers.2]
    rintro ⟨rfl | rfl, hne⟩ <;> exact hne rfl
  · unfold stop
    by_cases hsend : s.sendEvent = -1 <;> by_cases hrecv : s.receiveEvent = -1 <;>
      simp [hsend, hrecv, hi.proc, Proc.close_inv]
  · intro hne
    exact absurd hmembers.2 hne

/-- The members of a server with nothing open. -/
lemma members_of_closed (hs : s.Exact) (hclosed : s.Closed) :
    s.sendEvent = -1 ∧ s.receiveEvent = -1 := by
  have hno := closed_iff.mp hclosed
  constructor
  · by_contra hne
    exact hno _ ((hs.1 _).mpr ⟨Or.inl rfl, hne⟩)
  · by_contra hne
    exact hno _ ((hs.1 _).mpr ⟨Or.inr rfl, hne⟩)

lemma start_inv (hi : Inv s) (hclosed : s.Closed) (k : MulticastCalls) : Inv (s.start k).1 := by
  have hno := closed_iff.mp hclosed
  obtain ⟨-, hreceive⟩ := members_of_closed hi.exact hclosed
  have hsend := Proc.socket_inv (b := k.sendSocket) hi.proc
  have hopened : ∀ fd, (s.proc.socket k.sendSocket).1.opened fd = true ↔
      fd = (s.proc.socket k.sendSocket).2 ∧ fd ≠ -1 := by
    intro fd
    rw [Proc.socket_opened, or_iff_right (hno fd)]
    refine ⟨fun h => ⟨h.2, ?_⟩, fun h => ⟨?_, h.1⟩⟩
    · rw [h.2, Ne, Proc.socket_eq_neg, h.1]
      nofun
    · rw [← Bool.not_eq_false, ← Proc.socket_eq_neg (p := s.proc), ← h.1]
      exact h.2
  rw [start_eq]
  by_cases hboth : (k.sendSocket && k.getaddrinfo) = true
  · rw [if_pos hboth]
    have hmade : (s.proc.socket k.sendSocket).2 ≠ -1 := by
      rw [Ne, Proc.socket_eq_neg, (Bool.and_eq_true_iff.mp hboth).1]
      nofun
    refine ⟨⟨fun fd => ?_, nofun⟩, Proc.socket_inv hsend, fun _ => ⟨hmade, ?_⟩⟩
    · rw [Proc.socket_opened, hopened]
      constructor
      · rintro (⟨rfl, hne⟩ | ⟨hb, rfl⟩)
        · exact ⟨Or.inl rfl, hne⟩
        · refine ⟨Or.inr rfl, ?_⟩
          rw [Ne, Proc.socket_eq_neg, hb]
          nofun
      · rintro ⟨rfl | rfl, hne⟩
        · exact Or.inl ⟨rfl, hne⟩
        · exact Or.inr ⟨by rwa [Ne, Proc.socket_eq_neg, Bool.not_eq_false] at hne, rfl⟩
    · exact (Proc.socket_ne hsend ((hopened _).mpr ⟨rfl, hmade⟩)).symm
  · rw [if_neg hboth]
    refine ⟨⟨fun fd => ?_, nofun⟩, hsend, fun hne => absurd hreceive hne⟩
    rw [hopened, hreceive]
    exact ⟨fun h => ⟨Or.inl h.1, h.2⟩, fun h => ⟨h.1.resolve_right h.2, h.2⟩⟩

/-- A send socket that is open when `start` makes another one is in no member any more. -/
lemma closed_of_start (hi : Inv s) (k : MulticastCalls) (ht : (s.start k).1.Exact) : s.Closed := by
  refine closed_iff.mpr fun fd hfd => ?_
  have hne : s.sendEvent ≠ -1 := by
    obtain ⟨rfl | rfl, hne⟩ := (hi.exact.1 fd).mp hfd
    · exact hne
    · exact (hi.receive hne).1
  have hold : s.proc.opened s.sendEvent = true := (hi.exact.1 _).mpr ⟨Or.inl rfl, hne⟩
  have hkept : (s.proc.socket k.sendSocket).1.opened s.sendEvent = true :=
    Proc.socket_opened.mpr (Or.inl hold)
  have hsend : s.sendEvent ≠ (s.proc.socket k.sendSocket).2 := (Proc.socket_ne hi.proc hold).symm
  rw [start_eq] at ht
  split at ht
  · obtain ⟨heq | heq, -⟩ := (ht.1 s.sendEvent).mp (Proc.socket_opened.mpr (Or.inl hkept))
    · exact hsend heq
    · exact Proc.socket_ne (Proc.socket_inv hi.proc) hkept heq.symm
  · obtain ⟨heq | heq, -⟩ := (ht.1 s.sendEvent).mp hkept
    · exact hsend heq
    · exact (hi.receive (heq ▸ hne)).2 heq

lemma user_inv {p : Proc} (hi : Inv s) (hopened : p.opened = s.proc.opened) (hp : p.Inv) :
    Inv { s with proc := p } := by
  refine ⟨?_, hp, hi.receive⟩
  have hexact := hi.exact
  unfold Exact Closed at hexact ⊢
  rw [hopened]
  exact hexact

lemma step_inv (hi : Inv s) (hl : StartsClosed s l) (h : step s l = some t) : Inv t := by
  cases l with
  | start k =>
    cases h
    exact start_inv hi (hl k rfl) k
  | stop =>
    cases h
    exact stop_inv hi
  | userOpen =>
    cases h
    exact user_inv hi rfl (Proc.userOpen_inv hi.proc)
  | userClose fd =>
    obtain ⟨q, hq, rfl⟩ := Option.map_eq_some_iff.mp h
    obtain ⟨hopened, hp⟩ := Proc.userClose_inv hi.proc hq
    exact user_inv hi hopened hp

lemma init_inv (files : Files) : Inv (init files) := by
  refine ⟨⟨fun fd => iff_of_false nofun ?_, nofun⟩, nofun, fun hne => absurd rfl hne⟩
  rintro ⟨rfl | rfl, hne⟩ <;> exact hne rfl

lemma exact_iff {files : Files} {ls : List Label} (h : run step (init files) ls = some s) :
    Always step Exact (init files) ls ↔ Meets step StartsClosed (init files) ls := by
  refine always_iff_meets (I := Inv) (fun s l t hi hl ht => step_inv hi hl ht)
    (fun s hi => hi.exact) (fun s l t hi ht hP => ?_) (init_inv files) h
  rintro k rfl
  cases ht
  exact closed_of_start hi k hP

end MulticastServer

/-- **Start and stop.** In a run over a `TcpServer` every descriptor it has opened and not closed
is in its member, and none is left after `stop`, exactly when every `start` is called with none
open; and the member holds such a descriptor or -1 exactly when, besides, nothing is open where
`stop` is called. For a `MulticastServer` one condition is exact for both. -/
theorem start_stop (files : Files) :
    (∀ (ls : List TcpServer.Label) (s : TcpServer),
      run TcpServer.step (TcpServer.init files) ls = some s →
      (Always TcpServer.step TcpServer.NoLeak (TcpServer.init files) ls ↔
        Meets TcpServer.step TcpServer.StartsClosed (TcpServer.init files) ls) ∧
      (Always TcpServer.step TcpServer.Exact (TcpServer.init files) ls ↔
        Meets TcpServer.step TcpServer.CallsClosed (TcpServer.init files) ls)) ∧
    ∀ (ls : List MulticastServer.Label) (s : MulticastServer),
      run MulticastServer.step (MulticastServer.init files) ls = some s →
      (Always MulticastServer.step MulticastServer.Exact (MulticastServer.init files) ls ↔
        Meets MulticastServer.step MulticastServer.StartsClosed (MulticastServer.init files) ls) :=
  ⟨fun _ _ h => ⟨TcpServer.noLeak_iff h, TcpServer.exact_iff h⟩,
    fun _ _ h => MulticastServer.exact_iff h⟩

def tcpOk : TcpCalls := ⟨true, true, true, true⟩

def multicastOk : MulticastCalls := ⟨true, true, true, true, true, true, true⟩

/-- The calls of `start` meet the condition where there is a `stop` after each. -/
theorem start_stop_alternating :
    Always TcpServer.step TcpServer.NoLeak (TcpServer.init Files.none)
        [.start true { tcpOk with bind := false }, .stop, .startPath tcpOk] ∧
      Always MulticastServer.step MulticastServer.Exact (MulticastServer.init Files.none)
        [.start { multicastOk with bind := false }, .stop, .start multicastOk] := by
  have h := start_stop Files.none
  constructor
  · have hstart := TcpServer.noLeak_step (l := .start true { tcpOk with bind := false })
      (TcpServer.init_noLeak Files.none) (fun _ _ => rfl) rfl
    refine ((h.1 _ _ rfl).1).mpr (meets_step (fun _ _ => rfl) rfl (meets_step nofun rfl ?_))
    exact meets_step (fun _ => TcpServer.stop_closed hstart.1) rfl trivial
  · have hstart := MulticastServer.start_inv (MulticastServer.init_inv Files.none) (fun _ => rfl)
      { multicastOk with bind := false }
    refine (h.2 _ _ rfl).mpr (meets_step (fun _ _ _ => rfl) rfl (meets_step nofun rfl ?_))
    exact meets_step (fun _ _ => MulticastServer.stop_closed hstart.exact) rfl trivial

def tcpRetry : List TcpServer.Label :=
  [.start true { tcpOk with bind := false }, .start true tcpOk, .stop]

def multicastRetry : List MulticastServer.Label :=
  [.start { multicastOk with bind := false }, .start multicastOk, .stop]

/-- `bind` fails, and `start` is called again at once: the first descriptors are in no member, and
`stop` leaves them open. -/
theorem start_leaks :
    (∃ s, run TcpServer.step (TcpServer.init Files.none) tcpRetry = some s ∧
      s.proc.opened 0 = true ∧ s.listeningEvent = 1 ∧
      ¬ Always TcpServer.step TcpServer.NoLeak (TcpServer.init Files.none) tcpRetry) ∧
    ∃ s, run MulticastServer.step (MulticastServer.init Files.none) multicastRetry = some s ∧
      s.proc.opened 0 = true ∧ s.proc.opened 1 = true ∧ s.sendEvent = -1 ∧
      ¬ Always MulticastServer.step MulticastServer.Exact (MulticastServer.init Files.none)
        multicastRetry := by
  refine ⟨⟨_, rfl, ?_, ?_, fun h => ?_⟩, _, rfl, ?_, ?_, ?_, fun h => ?_⟩
  · decide +kernel
  · decide +kernel
  · have hclosed := (h _ _ List.prefix_rfl rfl).2 rfl 0
    exact absurd hclosed (by decide +kernel)
  · decide +kernel
  · decide +kernel
  · decide +kernel
  · have hclosed := (h _ _ List.prefix_rfl rfl).2 rfl 0
    exact absurd hclosed (by decide +kernel)

end Hbm.StartStop
