import Hbm.Stream

/-!
A data callback on the edge triggered loop, with the buffered reader between it and the kernel.

The loop calls the callback until this returns zero or less, and comes back only for a new edge.
`recv` reads ahead, so bytes may wait where no edge announces them: in the internal buffer. The
callback has to go on until `recv` tells it that there is nothing to read.
-/

namespace Hbm.Draining

open Hbm.Size Hbm.BufferedReader Hbm.Stream Hbm.Run
open Hbm.Syscall (Errno)

variable {β : Type*}

/-- What the loop does for the socket. In the callback: the bytes it has received, and whether
the last call of `recv` told it that there is nothing to read. -/
inductive Phase
  | waiting | serving
  | callback (got : ℕ) (told : Bool)
  deriving DecidableEq

structure St (β : Type*) where
  conn : Conn β
  /-- the peer has shut down the connection, or has reset it -/
  closed : Bool
  /-- an edge that has not been reported yet -/
  edge : Bool
  /-- `recv` has reported the end of the stream -/
  ended : Bool
  phase : Phase

inductive Label (β : Type*)
  | arrive (bytes : List β)
  | close
  | report
  /-- `epoll_wait` looks again at the socket, and drops the edge of one that is not readable -/
  | drop
  | call
  | recv (desiredLen : ℕ) (k : Answer) (e : Errno)
  | ret (r : ℤ)

/-- `readv` would block only on an empty and open connection, and the end of the stream comes
after its last byte. -/
def possible (s : St β) : Answer → Errno → Bool
  | .data _, _ => true
  | .eof, _ => s.conn.held.isEmpty && s.closed
  | .error, e => (e != .again && e != .wouldBlock) || (s.conn.held.isEmpty && !s.closed)

/-- `recv` reports the end of the stream. -/
def isEnd (desiredLen : ℕ) (x : Recv β) : Bool := x.ret == 0 && 0 < desiredLen

/-- `recv` says that there is nothing to read. -/
def tells (desiredLen : ℕ) (x : Recv β) (e : Errno) : Bool :=
  isEnd desiredLen x || (x.ret == -1 && (e == .again || e == .wouldBlock))

/-- What the callback notes of a call of `recv`. -/
def Phase.note (desiredLen : ℕ) (x : Recv β) (e : Errno) : Phase → Phase
  | .callback got _ => .callback (got + x.stored.length) (tells desiredLen x e)
  | p => p

def step (s : St β) : Label β → Option (St β)
  | .arrive bytes =>
    if s.closed then none
    else (Stream.step s.conn (.send bytes)).map fun conn => { s with conn := conn, edge := true }
  | .close => some { s with closed := true, edge := true }
  | .report =>
    if s.phase = .waiting ∧ (s.conn.held ≠ [] ∨ s.closed = true) then
      some { s with edge := false, phase := .serving }
    else none
  | .drop =>
    if s.phase = .waiting ∧ s.conn.held = [] ∧ s.closed = false then
      some { s with edge := false }
    else none
  | .call => if s.phase = .serving then some { s with phase := .callback 0 false } else none
  | .recv desiredLen k e =>
    if possible s k e then
      (Stream.step s.conn (.recv desiredLen k)).map fun conn => { s with
        conn := conn
        ended := s.ended || isEnd desiredLen (Stream.call s.conn desiredLen k)
        phase := s.phase.note desiredLen (Stream.call s.conn desiredLen k) e }
    else none
  | .ret r =>
    match s.phase with
    | .callback _ _ => some { s with phase := if 0 < r then .serving else .waiting }
    | _ => none

/-- `addEvent` has registered the callback and begins to call it; some bytes may have come
before. -/
def registered (buffer : List β) (h : buffer.length = bufferSize) (held : List β)
    (closed edge : Bool) : St β :=
  ⟨⟨⟨buffer, 0, 0, h⟩, held, held, []⟩, closed, edge, false, .serving⟩

/-- The condition on the steps: only the callback receives, and it returns zero or less only
after the last call of `recv` told it that there is nothing to read. -/
def Heeds (s : St β) : Label β → Prop
  | .recv desiredLen _ _ =>
    desiredLen + bufferSize ≤ ssizeMax ∧ ∃ got told, s.phase = .callback got told
  | .ret r => 0 < r ∨ ∃ got, s.phase = .callback got true
  | _ => True

/-- What waits for the callback is held by the kernel, and an edge announces it. -/
structure Quiet (s : St β) : Prop where
  buffered : buffered s.conn.reader = []
  held : s.conn.held = [] ∨ s.edge = true
  closed : s.closed = true → s.edge = true ∨ s.ended = true

/-- The invariant: also between the last call of `recv` and the return from the callback. -/
structure Inv (s : St β) : Prop where
  conn : Stream.Inv s.conn
  quiet : s.phase = .waiting ∨ (∃ got, s.phase = .callback got true) → Quiet s

variable {s t : St β} {l : Label β} {desiredLen : ℕ} {k : Answer} {e : Errno}

/-! ### One call of `recv` -/

lemma step_recv (h : step s (.recv desiredLen k e) = some t) :
    possible s k e = true ∧ Stream.step s.conn (.recv desiredLen k) = some t.conn ∧
      t.closed = s.closed ∧ t.edge = s.edge ∧
      t.ended = (s.ended || isEnd desiredLen (Stream.call s.conn desiredLen k)) ∧
      t.phase = s.phase.note desiredLen (Stream.call s.conn desiredLen k) e := by
  simp only [step] at h
  split at h
  · obtain ⟨conn, hconn, rfl⟩ := Option.map_eq_some_iff.mp h
    exact ⟨‹_›, hconn, rfl, rfl, rfl, rfl⟩
  · cases h

/-- The end of the stream is reported with nothing buffered and nothing held. -/
lemma empty_of_isEnd (hi : Stream.Inv s.conn) (hlen : desiredLen + bufferSize ≤ ssizeMax)
    (h : step s (.recv desiredLen k e) = some t)
    (hend : isEnd desiredLen (Stream.call s.conn desiredLen k) = true) :
    residual t.conn = [] ∧ s.closed = true := by
  obtain ⟨hpos, hconn, -⟩ := step_recv h
  have hf := recv_faithful hi hlen hconn
  simp only [isEnd, Bool.and_eq_true, beq_iff_eq, decide_eq_true_eq] at hend
  obtain ⟨-, rfl, hbuf⟩ := hf.eof hend.1 hend.2
  simp only [possible, Bool.and_eq_true, List.isEmpty_iff] at hpos
  obtain ⟨-, -, -, hrest⟩ := hf.stored 0 (by simpa using hend.1)
  refine ⟨?_, hpos.2⟩
  rw [hrest, List.drop_zero, Stream.residual, hbuf, hpos.1, List.append_nil]

/-- `readv` would block with nothing buffered and nothing held. -/
lemma empty_of_again (hi : Stream.Inv s.conn) (hlen : desiredLen + bufferSize ≤ ssizeMax)
    (h : step s (.recv desiredLen k e) = some t)
    (hret : (Stream.call s.conn desiredLen k).ret = -1) (he : e = .again ∨ e = .wouldBlock) :
    residual t.conn = [] ∧ s.closed = false := by
  obtain ⟨hpos, hconn, -⟩ := step_recv h
  obtain ⟨hk, -⟩ := Stream.step_recv hconn
  have hd := call_delivers hi hlen hk
  have hf := recv_faithful hi hlen hconn
  obtain ⟨-, hrest⟩ := hf.failed hret
  rcases hd.ret with hlen' | ⟨-, -, hcalled, herr⟩
  · omega
  obtain ⟨hbuf, -⟩ := hd.called hcalled
  have hkerr : k = .error := by
    cases k with
    | error => rfl
    | _ => cases herr
  subst hkerr
  have hempty : s.conn.held = [] ∧ s.closed = false := by
    rcases he with rfl | rfl <;> simpa [possible] using hpos
  exact ⟨by rw [hrest, Stream.residual, hbuf, hempty.1, List.append_nil], hempty.2⟩

/-- A call of `recv` that says so has left nothing to read. -/
lemma quiet_of_tells (hi : Stream.Inv s.conn) (hlen : desiredLen + bufferSize ≤ ssizeMax)
    (h : step s (.recv desiredLen k e) = some t)
    (htells : tells desiredLen (Stream.call s.conn desiredLen k) e = true) : Quiet t := by
  obtain ⟨-, -, hclosed, -, hended, -⟩ := step_recv h
  have hempty : residual t.conn = [] ∧ (t.closed = true → t.ended = true) := by
    simp only [tells, Bool.or_eq_true, Bool.and_eq_true, beq_iff_eq] at htells
    rcases htells with hend | ⟨hret, he⟩
    · have hnil := empty_of_isEnd hi hlen h hend
      exact ⟨hnil.1, fun _ => by rw [hended, hend, Bool.or_true]⟩
    · have hnil := empty_of_again hi hlen h hret he
      exact ⟨hnil.1, fun hc => by rw [hclosed, hnil.2] at hc; cases hc⟩
  obtain ⟨hbuf, hheld⟩ := List.append_eq_nil_iff.mp hempty.1
  exact ⟨hbuf, .inl hheld, fun hc => .inr (hempty.2 hc)⟩

/-- A call of `recv` asks for no more than a signed size can say. -/
def Sized : Label β → Prop
  | .recv desiredLen _ _ => desiredLen + bufferSize ≤ ssizeMax
  | _ => True

/-- Whoever receives, and whenever: the bytes stay in order. -/
lemma conn_inv (hi : Stream.Inv s.conn) (hl : Sized l) (h : step s l = some t) :
    Stream.Inv t.conn := by
  cases l with
  | arrive bytes =>
    simp only [step] at h
    split at h
    · cases h
    · obtain ⟨conn, hconn, rfl⟩ := Option.map_eq_some_iff.mp h
      exact Stream.step_inv (l := .send bytes) hi trivial hconn
  | close =>
    cases h
    exact hi
  | recv desiredLen k e =>
    obtain ⟨-, hconn, -⟩ := step_recv h
    exact Stream.step_inv (l := .recv desiredLen k) hi hl hconn
  | report | drop | call | ret r =>
    simp only [step] at h
    split at h <;> cases h
    exact hi

lemma recv_inv (hi : Inv s) (hl : Heeds s (.recv desiredLen k e))
    (h : step s (.recv desiredLen k e) = some t) : Inv t := by
  obtain ⟨hlen, got, told, hphase⟩ := hl
  obtain ⟨-, -, -, -, -, hphase'⟩ := step_recv h
  refine ⟨conn_inv (l := .recv desiredLen k e) hi.conn hlen h, fun hq => ?_⟩
  rw [hphase', hphase] at hq
  simp only [Phase.note, reduceCtorEq, Phase.callback.injEq, false_or] at hq
  obtain ⟨-, -, htells⟩ := hq
  exact quiet_of_tells hi.conn hlen h htells

/-! ### The other steps -/

lemma arrive_inv {bytes : List β} (hi : Inv s) (h : step s (.arrive bytes) = some t) : Inv t := by
  refine ⟨conn_inv (l := .arrive bytes) hi.conn trivial h, fun hq => ?_⟩
  simp only [step] at h
  split at h
  · cases h
  · obtain ⟨conn, hconn, rfl⟩ := Option.map_eq_some_iff.mp h
    cases hconn
    exact ⟨(hi.quiet hq).buffered, .inr rfl, fun _ => .inl rfl⟩

lemma close_inv (hi : Inv s) (h : step s .close = some t) : Inv t := by
  cases h
  exact ⟨hi.conn, fun hq => ⟨(hi.quiet hq).buffered, .inr rfl, fun _ => .inl rfl⟩⟩

lemma ret_inv {r : ℤ} (hi : Inv s) (hl : Heeds s (.ret r)) (h : step s (.ret r) = some t) :
    Inv t := by
  simp only [step] at h
  split at h
  · rename_i got told hphase
    cases h
    refine ⟨hi.conn, fun hq => ?_⟩
    by_cases hr : 0 < r
    · simp [hr] at hq
    · have htold : ∃ got, s.phase = .callback got true := hl.resolve_left hr
      obtain ⟨hbuf, hheld, hclosed⟩ := hi.quiet (.inr htold)
      exact ⟨hbuf, hheld, hclosed⟩
  · cases h

/-- An edge that is dropped announced nothing. -/
lemma drop_inv (hi : Inv s) (h : step s .drop = some t) : Inv t := by
  simp only [step] at h
  split at h
  · rename_i hdrop
    obtain ⟨hwait, hheld, hopen⟩ := hdrop
    cases h
    refine ⟨hi.conn, fun _ => ⟨(hi.quiet (.inl hwait)).buffered, .inl hheld, fun hclosed => ?_⟩⟩
    simp [hopen] at hclosed
  · cases h

lemma step_inv (hi : Inv s) (hl : Heeds s l) (h : step s l = some t) : Inv t := by
  cases l with
  | drop => exact drop_inv hi h
  | arrive bytes => exact arrive_inv hi h
  | close => exact close_inv hi h
  | recv desiredLen k e => exact recv_inv hi hl h
  | ret r => exact ret_inv hi hl h
  | report =>
    simp only [step] at h
    split at h <;> cases h
    exact ⟨hi.conn, by simp⟩
  | call =>
    simp only [step] at h
    split at h <;> cases h
    exact ⟨hi.conn, by simp⟩

/-- One byte is asked for and three come; the next call hands on the two that were read ahead, and
a fourth byte comes meanwhile. When the callback is told that there is no more, the edge of the
fourth byte is stale. -/
def readAhead : List (Label ℕ) :=
  [.call, .recv 1 (.data 3) .other, .ret 1, .call, .recv 2 .error .other, .arrive [4], .ret 2,
    .call, .recv 2 (.data 1) .other, .ret 1, .call, .recv 2 .error .again, .ret (-1), .drop]

def isCall : Label β → Bool
  | .call => true
  | _ => false

end Hbm.Draining
