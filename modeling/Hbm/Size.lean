import Mathlib.Algebra.Order.Ring.Int
import Mathlib.Tactic.Lemma

/-!
What the calls on a socket return.

`size_t` and `ssize_t` have 64 bits: the arithmetic wraps around, and the casts keep the bits. After
a failed call there is `errno`, and `poll` looks at one descriptor.
-/

namespace Hbm.Size

def sizeMod : ℕ := 2 ^ 64
def ssizeMax : ℕ := 2 ^ 63 - 1

/-- `a + b` on `size_t`. -/
def add (a b : ℕ) : ℕ := (a + b) % sizeMod

/-- `a - b` on `size_t`. -/
def sub (a b : ℕ) : ℕ := (a + (sizeMod - b % sizeMod)) % sizeMod

/-- `static_cast < ssize_t >` of a `size_t`. -/
def toSsize (a : ℕ) : ℤ := if a ≤ ssizeMax then a else (a : ℤ) - sizeMod

/-- `static_cast < size_t >` of an `ssize_t`. -/
def toSize (z : ℤ) : ℕ := (z % sizeMod).toNat

/-- `static_cast < int >` of a `size_t`, with 32 bits. -/
def toInt (a : ℕ) : ℤ := ((a + 2 ^ 31 : ℕ) % 2 ^ 32 : ℕ) - 2 ^ 31

lemma add_eq {a b : ℕ} (h : a + b < sizeMod) : add a b = a + b := Nat.mod_eq_of_lt h

lemma sub_eq {a b : ℕ} (ha : a < sizeMod) (h : b ≤ a) : sub a b = a - b := by
  have hb : b % sizeMod = b := Nat.mod_eq_of_lt (Nat.lt_of_le_of_lt h ha)
  have hwrap : a + (sizeMod - b) = (a - b) + sizeMod := by omega
  unfold sub
  rw [hb, hwrap, Nat.add_mod_right, Nat.mod_eq_of_lt (by omega)]

lemma toSsize_eq {a : ℕ} (h : a ≤ ssizeMax) : toSsize a = a := if_pos h

lemma toSize_natCast {a : ℕ} (h : a < sizeMod) : toSize a = a := by
  unfold toSize
  rw [← Int.natCast_emod, Int.toNat_natCast, Nat.mod_eq_of_lt h]

lemma toInt_eq {a : ℕ} (h : a < 2 ^ 31) : toInt a = a := by
  unfold toInt
  omega

/-- The cast to `int` keeps the value exactly of what an `int` holds. -/
lemma toInt_eq_iff {a : ℕ} : toInt a = a ↔ a < 2 ^ 31 := by
  refine ⟨fun h => ?_, toInt_eq⟩
  unfold toInt at h
  omega

lemma ssizeMax_lt : ssizeMax < sizeMod := by decide

end Hbm.Size

namespace Hbm.Syscall

inductive Errno
  | wouldBlock | again | intr | other
  deriving DecidableEq

/-- What one call of `poll` answers. -/
inductive Poll
  | ready
  | timeout
  | failed (e : Errno)
  deriving DecidableEq

def Poll.ret : Poll → ℤ
  | .ready => 1
  | .timeout => 0
  | .failed _ => -1

end Hbm.Syscall
