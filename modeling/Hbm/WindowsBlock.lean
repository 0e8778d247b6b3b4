import Hbm.Blocks
import Hbm.Run
import Mathlib.Tactic.Cases

/-!
Sending one block under Windows.

The loop is the one of the Linux version, but an error declares a second `retVal` inside it.
What the error paths store there is gone at the end of the loop, so after a fatal error or a
failed `select` the size of the block is returned. Only a closed connection reaches the outer
`retVal`.
-/

namespace Hbm.WindowsBlock

open Hbm.Size Hbm.Blocks Hbm.Run

/-- What `WSAGetLastError` answers. -/
inductive WsaError
  | wouldBlock | ioPending | intr | inProgress
  | other (code : ℕ)
  deriving DecidableEq

def WsaError.code : WsaError → ℤ
  | .wouldBlock => 10035
  | .ioPending => 997
  | .intr => 10004
  | .inProgress => 10036
  | .other code => code

/-- An error that is no reason to try again. -/
def WsaError.fatal : WsaError → Bool
  | .other _ => true
  | _ => false

/-- What one call of `WSASend` or `send` answers. -/
inductive Sent
  | ok (n : ℕ)
  | failed (e : WsaError)
  deriving DecidableEq

inductive Call
  | send (k : Sent)
  | select (err : ℤ)

def Call.fatal : Call → Bool
  | .send (.failed e) => e.fatal
  | .select err => err != 1
  | _ => false

def Call.closed : Call → Bool
  | .send (.ok 0) => true
  | _ => false

/-- What the calls have answered: the bytes the kernel took, and whether there was a fatal error
or a closed connection. -/
structure Trace where
  accepted : List UInt8
  fatal : Bool
  closed : Bool
  deriving DecidableEq

def Trace.init : Trace := ⟨[], false, false⟩

def Trace.note (t : Trace) (c : Call) (taken : List UInt8) : Trace :=
  ⟨t.accepted ++ taken, t.fatal || c.fatal, t.closed || c.closed⟩

inductive Pc
  | send | select | returned
  deriving DecidableEq

/-- A call of `sendBlock`. -/
structure Block where
  pDat : ℕ
  bytesLeft : ℕ
  retVal : ℤ
  pc : Pc
  deriving DecidableEq

/-- The condition of the loop. -/
def loop (b : Block) : Block := { b with pc := if 0 < b.bytesLeft then .send else .returned }

/-- `ssize_t` is an `int`. -/
def start (pBlock size : ℕ) : Block := loop ⟨pBlock, size, toInt size, .send⟩

def send (b : Block) : Sent → Block
  | .ok n =>
    if 0 < n then loop { b with pDat := b.pDat + n, bytesLeft := sub b.bytesLeft n }
    else loop { b with bytesLeft := 0, retVal := -1 } -- connection closed
  | .failed e =>
    if e = .wouldBlock ∨ e = .ioPending ∨ e = .inProgress then { b with pc := .select }
    else if e ≠ .intr then loop { b with bytesLeft := 0 } -- the -1 goes to the inner `retVal`
    else loop b

def select (b : Block) (err : ℤ) : Block :=
  if err ≠ 1 then loop { b with bytesLeft := 0 } -- the inner `retVal` again
  else loop b

/-- No more is accepted than was offered, as an `int`, and an error has a code. -/
def Sent.possible (offered : ℤ) : Sent → Bool
  | .ok n => n ≤ max 0 offered
  | .failed e => 0 < e.code

def Sent.taken (mem : Memory) (b : Block) : Sent → List UInt8
  | .ok n => load mem b.pDat n
  | .failed _ => []

def step (mem : Memory) (s : Block × Trace) (c : Call) : Option (Block × Trace) :=
  match c with
  | .send k =>
    if s.1.pc = .send ∧ k.possible (toInt s.1.bytesLeft) then
      some (send s.1 k, s.2.note c (k.taken mem s.1))
    else none
  | .select err =>
    if s.1.pc = .select then some (select s.1 err, s.2.note c []) else none

/-! ### The invariant -/

/-- `target` is what has been accepted behind the block, unless something was lost. -/
def Got (target : List UInt8) (t : Trace) : Prop :=
  if t.fatal then t.accepted.length < target.length else t.accepted = target

/-- What holds in the loop. Something may have been lost before this block. -/
structure Loop (mem : Memory) (target : List UInt8) (size : ℕ) (b : Block) (t : Trace) :
    Prop where
  retVal : b.retVal = size
  notClosed : t.closed = false
  small : b.bytesLeft < 2 ^ 31
  lost : t.fatal = true → t.accepted.length + b.bytesLeft < target.length
  rest : t.fatal = false → t.accepted ++ load mem b.pDat b.bytesLeft = target

/-- The block has returned. -/
def Done (target : List UInt8) (size : ℕ) (b : Block) (t : Trace) : Prop :=
  (t.closed = true ∧ b.retVal = -1 ∧ t.accepted.length < target.length) ∨
    (t.closed = false ∧ b.retVal = size ∧ Got target t)

def Inv (mem : Memory) (target : List UInt8) (size : ℕ) (s : Block × Trace) : Prop :=
  if s.1.pc = .returned then Done target size s.1 s.2
  else Loop mem target size s.1 s.2 ∧ 0 < s.1.bytesLeft

variable {mem : Memory} {target : List UInt8} {size : ℕ} {b : Block} {t : Trace}

lemma Got.lost (h : Got target t) (hf : t.fatal = true) :
    t.accepted.length < target.length := by
  simpa only [Got, hf, if_true] using h

lemma Got.all (h : Got target t) (hf : t.fatal = false) : t.accepted = target := by
  simpa only [Got, hf, Bool.false_eq_true, if_false] using h

lemma loop_inv (h : Loop mem target size b t) : Inv mem target size (loop b, t) := by
  unfold Inv loop
  by_cases hpos : 0 < b.bytesLeft
  · simp only [hpos, if_true]
    exact ⟨⟨h.retVal, h.notClosed, h.small, h.lost, h.rest⟩, trivial⟩
  · simp only [hpos, if_false, if_true]
    have hzero : b.bytesLeft = 0 := by omega
    refine .inr ⟨h.notClosed, h.retVal, ?_⟩
    unfold Got
    cases hf : t.fatal with
    | true =>
      have := h.lost hf
      simp only [if_true]
      omega
    | false =>
      have hrest := h.rest hf
      rw [hzero, show load mem b.pDat 0 = [] from rfl, List.append_nil] at hrest
      simpa using hrest

lemma start_inv {pBlock : ℕ} (hsize : size < 2 ^ 31)
    (hclosed : t.closed = false) (hlost : t.fatal = true → t.accepted.length + size < target.length)
    (hrest : t.fatal = false → t.accepted ++ load mem pBlock size = target) :
    Inv mem target size (start pBlock size, t) :=
  loop_inv ⟨toInt_eq hsize, hclosed, hsize, hlost, hrest⟩

/-- In the loop something is missing. -/
lemma Loop.length_lt (h : Loop mem target size b t) (hpos : 0 < b.bytesLeft) :
    t.accepted.length < target.length := by
  cases hf : t.fatal with
  | true =>
    have := h.lost hf
    omega
  | false =>
    have hlen := congrArg List.length (h.rest hf)
    rw [List.length_append, load_length] at hlen
    omega

/-- Leaving the loop for an error leaves the size in `retVal`. -/
lemma fatal_inv {c : Call} (h : Loop mem target size b t) (hpos : 0 < b.bytesLeft)
    (hfatal : c.fatal = true) (hclosed : c.closed = false) :
    Inv mem target size (loop { b with bytesLeft := 0 }, t.note c []) := by
  have hlt := h.length_lt hpos
  refine loop_inv ⟨h.retVal, by simp [Trace.note, h.notClosed, hclosed], by simp, fun _ => ?_,
    fun hf => ?_⟩
  · simpa [Trace.note] using hlt
  · simp [Trace.note, hfatal] at hf

lemma Loop.note {c : Call} (h : Loop mem target size b t) (hfatal : c.fatal = false)
    (hclosed : c.closed = false) : Loop mem target size b (t.note c []) :=
  ⟨h.retVal, by simp [Trace.note, h.notClosed, hclosed], h.small,
    by simpa [Trace.note, hfatal] using h.lost, by simpa [Trace.note, hfatal] using h.rest⟩

lemma send_inv {k : Sent} (h : Loop mem target size b t) (hpos : 0 < b.bytesLeft)
    (hk : k.possible (toInt b.bytesLeft) = true) :
    Inv mem target size (send b k, t.note (.send k) (k.taken mem b)) := by
  cases k with
  | ok n =>
    have hle : n ≤ b.bytesLeft := by
      rw [toInt_eq h.small] at hk
      simp only [Sent.possible, decide_eq_true_eq] at hk
      omega
    by_cases hn : 0 < n
    · simp only [send, hn, if_true, Sent.taken]
      have hsmall := h.small
      have hsub : sub b.bytesLeft n = b.bytesLeft - n := sub_eq (by unfold sizeMod; omega) hle
      have hclosed : (Call.send (.ok n)).closed = false := by
        cases n with
        | zero => omega
        | succ n => rfl
      refine loop_inv ⟨h.retVal, by simp [Trace.note, h.notClosed, hclosed], ?_, fun hf => ?_,
        fun hf => ?_⟩
      · simp only [hsub]
        omega
      · have := h.lost (by simpa [Trace.note, Call.fatal] using hf)
        simp only [Trace.note, List.length_append, load_length, hsub]
        omega
      · have hrest := h.rest (by simpa [Trace.note, Call.fatal] using hf)
        have hsplit : b.bytesLeft = n + (b.bytesLeft - n) := by omega
        simp only [Trace.note, hsub]
        rw [List.append_assoc, ← load_add, ← hsplit]
        exact hrest
    · obtain rfl : n = 0 := by omega
      have hlt := h.length_lt hpos
      simp only [send, Nat.lt_irrefl, if_false, Sent.taken]
      simp only [Inv, loop, Nat.lt_irrefl, if_false, if_true]
      exact .inl ⟨by simp [Trace.note, Call.closed], rfl, by simpa [Trace.note, load] using hlt⟩
  | failed e =>
    have hclosed : (Call.send (.failed e)).closed = false := rfl
    cases e with
    | other code => exact fatal_inv h hpos rfl hclosed
    | intr => exact loop_inv (h.note rfl hclosed)
    | _ => exact ⟨⟨h.retVal, (h.note rfl hclosed).notClosed, h.small, (h.note rfl hclosed).lost,
        (h.note rfl hclosed).rest⟩, hpos⟩

lemma select_inv {err : ℤ} (h : Loop mem target size b t) (hpos : 0 < b.bytesLeft) :
    Inv mem target size (select b err, t.note (.select err) []) := by
  by_cases herr : err = 1
  · subst herr
    exact loop_inv (h.note rfl rfl)
  · simp only [select, herr, ne_eq, not_false_eq_true, if_true]
    exact fatal_inv h hpos (by simp [Call.fatal, herr]) rfl

lemma step_inv {s u : Block × Trace} {c : Call} (hs : Inv mem target size s)
    (h : step mem s c = some u) : Inv mem target size u := by
  obtain ⟨b, t⟩ := s
  cases c with
  | send k =>
    simp only [step] at h
    split at h <;> rename_i hk <;> cases h
    simp only [Inv, hk.1, reduceCtorEq, if_false] at hs
    exact send_inv hs.1 hs.2 hk.2
  | select err =>
    simp only [step] at h
    split at h <;> rename_i hk <;> cases h
    simp only [Inv, hk, reduceCtorEq, if_false] at hs
    exact select_inv hs.1 hs.2

/-- The trace has the answers of all calls. -/
lemma step_trace {s u : Block × Trace} {c : Call} (h : step mem s c = some u) :
    u.2.fatal = (s.2.fatal || c.fatal) ∧ u.2.closed = (s.2.closed || c.closed) := by
  cases c with
  | send k =>
    simp only [step] at h
    split at h <;> cases h
    exact ⟨rfl, rfl⟩
  | select err =>
    simp only [step] at h
    split at h <;> cases h
    exact ⟨rfl, rfl⟩

end Hbm.WindowsBlock
