import Hbm.Run
import Mathlib.Algebra.Order.Ring.Int
import Mathlib.Tactic.Cases
import Mathlib.Tactic.Lemma

/-!
The library's own handlers under an edge triggered event loop.

An event is reported once when work arrives, and the loop calls the handler as long as it
returns more than zero. So zero or less has to mean that nothing is queued any more. The
handlers return -1 for every error of the system call, and only one of these errors says that
the queue is empty.
-/

namespace Hbm.EdgeContract

open Hbm.Run

inductive Errno
  | again | intr | connAborted | mFile | noBufs
  deriving DecidableEq

/-- What the system call of a handler answers. -/
inductive Outcome
  | success
  | error (e : Errno)
  deriving DecidableEq

/-- What is queued at a descriptor, the next one first: connections, datagrams as their
length, or expirations and notifications as their number. -/
abbrev Queue := List ℕ

/-! ### System calls -/

/-- What the call hands over and what stays queued, `none` where the outcome is impossible. -/
def accept (q : Queue) : Outcome → Option (Option ℕ × Queue)
  | .success => match q with
    | [] => none
    | c :: q => some (some c, q)
  | .error .again => if q = [] then some (none, q) else none
  | .error .connAborted => match q with
    | [] => none
    | _ :: q => some (none, q)
  | .error _ => some (none, q)

def recvmsg (q : Queue) : Outcome → Option (Option ℕ × Queue)
  | .success => match q with
    | [] => none
    | n :: q => some (some n, q)
  | .error .again => if q = [] then some (none, q) else none
  | .error _ => some (none, q)

/-- A timerfd and an eventfd are read away at once. -/
def read (q : Queue) : Outcome → Option (Option ℕ × Queue)
  | .success => if q = [] then none else some (some q.sum, [])
  | .error .again => if q = [] then some (none, q) else none
  | .error _ => some (none, q)

/-! ### The handlers: the result of one call and what it leaves queued -/

def TcpServer.process (o : Outcome) (q : Queue) : Option (ℤ × Queue) :=
  (accept q o).map fun (clientFd, q) => (if clientFd.isSome then 1 else -1, q)

def Netlink.process (o : Outcome) (q : Queue) : Option (ℤ × Queue) :=
  (recvmsg q o).map fun (nBytes, q) => (nBytes.elim (-1) Nat.cast, q)

def Timer.process (o : Outcome) (q : Queue) : Option (ℤ × Queue) :=
  (read q o).map fun (_, q) => (0, q)

def Notifier.process (o : Outcome) (q : Queue) : Option (ℤ × Queue) :=
  (read q o).map fun (eventCount, q) => (if eventCount.isSome then 0 else -1, q)

inductive Kind
  | tcpServer | netlink | timer | notifier
  deriving DecidableEq

def process : Kind → Outcome → Queue → Option (ℤ × Queue)
  | .tcpServer => TcpServer.process
  | .netlink => Netlink.process
  | .timer => Timer.process
  | .notifier => Notifier.process

/-- The condition on a call: an error that is not `EAGAIN` finds nothing queued but the
connection it takes off, and an empty datagram is the last one queued. -/
def Harmless : Kind → Outcome → Queue → Prop
  | _, .error .again, _ => True
  | .tcpServer, .error .connAborted, q => q.tail = []
  | _, .error _, q => q = []
  | .netlink, .success, q => q.head? = some 0 → q.tail = []
  | _, .success, _ => True

variable {k : Kind} {o : Outcome} {q q' : Queue} {r : ℤ}

lemma tcpServer_contract (h : TcpServer.process o q = some (r, q')) :
    (r ≤ 0 → q' = []) ↔ Harmless .tcpServer o q := by
  rcases o with _ | e
  · rcases q with _ | ⟨c, q⟩ <;> cases h
    simp [Harmless]
  · cases e with
    | again =>
      by_cases hq : q = [] <;> simp [TcpServer.process, accept, hq] at h
      simp [Harmless, h]
    | connAborted =>
      rcases q with _ | ⟨c, q⟩ <;> cases h
      simp [Harmless]
    | _ =>
      cases h
      simp [Harmless]

lemma netlink_contract (h : Netlink.process o q = some (r, q')) :
    (r ≤ 0 → q' = []) ↔ Harmless .netlink o q := by
  rcases o with _ | e
  · rcases q with _ | ⟨n, q⟩ <;> cases h
    simp [Harmless]
  · cases e with
    | again =>
      by_cases hq : q = [] <;> simp [Netlink.process, recvmsg, hq] at h
      simp [Harmless, h]
    | _ =>
      cases h
      simp [Harmless]

/-- What is read away is all there was. -/
lemma read_contract {n : Option ℕ} (h : read q o = some (n, q')) :
    q' = [] ↔ Harmless .timer o q := by
  rcases o with _ | e
  · by_cases hq : q = [] <;> simp [read, hq] at h
    simp [Harmless, ← h.2]
  · cases e with
    | again =>
      by_cases hq : q = [] <;> simp [read, hq] at h
      simp [Harmless, ← h.2]
    | _ =>
      cases h
      simp [Harmless]

lemma timer_contract (h : Timer.process o q = some (r, q')) :
    (r ≤ 0 → q' = []) ↔ Harmless .timer o q := by
  obtain ⟨⟨n, q⟩, hread, heq⟩ := Option.map_eq_some_iff.mp h
  cases heq
  rw [← read_contract hread]
  exact forall_prop_of_true (Int.le_refl 0)

/-- The same is asked of both. -/
lemma harmless_notifier : Harmless .notifier o q ↔ Harmless .timer o q := by
  rcases o with _ | e
  · rfl
  · cases e <;> rfl

lemma notifier_contract (h : Notifier.process o q = some (r, q')) :
    (r ≤ 0 → q' = []) ↔ Harmless .notifier o q := by
  obtain ⟨⟨n, q⟩, hread, heq⟩ := Option.map_eq_some_iff.mp h
  cases heq
  have hle : (if n.isSome then 0 else -1 : ℤ) ≤ 0 := by
    split_ifs <;> decide
  rw [harmless_notifier, ← read_contract hread]
  exact forall_prop_of_true hle

/-- A call that returns zero or less leaves nothing queued exactly when it is harmless. -/
lemma process_contract (h : process k o q = some (r, q')) :
    (r ≤ 0 → q' = []) ↔ Harmless k o q := by
  cases k with
  | tcpServer => exact tcpServer_contract h
  | netlink => exact netlink_contract h
  | timer => exact timer_contract h
  | notifier => exact notifier_contract h

/-! ### The event loop -/

/-- What the loop does for the descriptor: it waits for the edge, it is about to call the
handler, or the handler has made its system call and is in its callback. -/
inductive Phase
  | waiting | serving
  | callback (r : ℤ)
  deriving DecidableEq

structure St where
  queue : Queue
  /-- an edge that has not been reported yet -/
  edge : Bool
  phase : Phase
  deriving DecidableEq

inductive Label
  | arrive (w : ℕ)
  | report
  | call (o : Outcome)
  | ret

def step (k : Kind) (s : St) : Label → Option St
  | .arrive w => some { s with queue := s.queue ++ [w], edge := true }
  | .report =>
    if s.phase = .waiting ∧ s.edge then some { s with edge := false, phase := .serving } else none
  | .call o =>
    if s.phase = .serving then
      (process k o s.queue).map fun (r, q) => { s with queue := q, phase := .callback r }
    else none
  | .ret =>
    match s.phase with
    | .callback r => some { s with phase := if 0 < r then .serving else .waiting }
    | _ => none

/-- `addEvent` has registered the handler and begins to call it. -/
def registered (q : Queue) (edge : Bool) : St := ⟨q, edge, .serving⟩

/-- What is queued will be reported. -/
def Seen (s : St) : Prop := s.queue = [] ∨ s.edge = true

/-- While the loop does not look at the descriptor, nothing is queued that it will not be told
about. -/
def NothingHangs (s : St) : Prop := s.phase = .waiting → Seen s

def HarmlessCall (k : Kind) (s : St) : Label → Prop
  | .call o => Harmless k o s.queue
  | _ => True

/-- The invariant: also between a last system call and the return from the callback. -/
def Inv (s : St) : Prop :=
  match s.phase with
  | .waiting => Seen s
  | .serving => True
  | .callback r => r ≤ 0 → Seen s

lemma inv_step {s t : St} {l : Label} (hs : Inv s) (hl : HarmlessCall k s l)
    (h : step k s l = some t) : Inv t := by
  cases l with
  | arrive w =>
    cases h
    cases s.phase <;> simp [Inv, Seen]
  | report =>
    simp only [step] at h
    split at h <;> cases h
    trivial
  | call o =>
    simp only [step] at h
    split at h <;> try cases h
    obtain ⟨⟨r, q⟩, hq, rfl⟩ := Option.map_eq_some_iff.mp h
    exact fun hr => .inl ((process_contract hq).mpr hl hr)
  | ret =>
    simp only [step] at h
    split at h <;> rename_i r hp <;> cases h
    by_cases hr : 0 < r
    · simp [Inv, hr]
    · simp only [Inv, hr, if_false]
      simp only [Inv, hp] at hs
      exact hs (by omega)

/-- **The edge triggered contract.** A call of one of the four handlers that returns zero or
less leaves nothing queued if and only if it is harmless. And in every run of the event loop
whose calls are harmless nothing queued waits for an unrelated arrival. -/
theorem edge_triggered (k : Kind) :
    (∀ o q r q', process k o q = some (r, q') → ((r ≤ 0 → q' = []) ↔ Harmless k o q)) ∧
    ∀ q edge ls s, run (step k) (registered q edge) ls = some s →
      Meets (step k) (HarmlessCall k) (registered q edge) ls → NothingHangs s := by
  refine ⟨fun o q r q' h => process_contract h, fun q edge ls s h hok hw => ?_⟩
  have hs : Inv s :=
    run_inv_of_meets (fun _ _ _ hu hl ht => inv_step hu hl ht) (s := registered q edge) trivial
      hok h
  simpa [Inv, hw] using hs

/-- Two connections are accepted, and the third call finds the queue empty. -/
def accepted : List Label :=
  [.call .success, .ret, .call .success, .arrive 0, .ret, .call .success, .ret,
    .call (.error .again), .ret]

theorem accepted_seen : ∃ s, run (step .tcpServer) (registered [0, 0] true) accepted = some s ∧
    s.phase = .waiting ∧ NothingHangs s := by
  have h : run (step .tcpServer) (registered [0, 0] true) accepted =
    some ⟨[], true, .waiting⟩ := rfl
  have hok : Meets (step .tcpServer) (HarmlessCall .tcpServer) (registered [0, 0] true)
      accepted := by
    simp [accepted, Meets, HarmlessCall, Harmless]
  exact ⟨_, h, rfl, (edge_triggered .tcpServer).2 _ _ _ _ h hok⟩

/-- A connection waits and there is no descriptor for it, two datagrams wait behind an overrun,
an expiration and a notification wait behind an interrupted read. -/
theorem work_hangs :
    run (step .tcpServer) (registered [1] false) [.call (.error .mFile), .ret] =
      some ⟨[1], false, .waiting⟩ ∧
    run (step .netlink) (registered [1] false) [.call (.error .noBufs), .ret] =
      some ⟨[1], false, .waiting⟩ ∧
    run (step .timer) (registered [1] false) [.call (.error .intr), .ret] =
      some ⟨[1], false, .waiting⟩ ∧
    run (step .notifier) (registered [1] false) [.call (.error .intr), .ret] =
      some ⟨[1], false, .waiting⟩ :=
  ⟨rfl, rfl, rfl, rfl⟩

end Hbm.EdgeContract
