import Hbm.Size
import Mathlib.Algebra.BigOperators.Group.List.Basic
import Mathlib.Data.List.Basic

/-!
Memory areas, and the byte sequence a list of areas stands for.
-/

namespace Hbm.Blocks

abbrev Memory := ℕ → UInt8

/-- The bytes from an address on. -/
def load (mem : Memory) (addr size : ℕ) : List UInt8 :=
  (List.range size).map fun i => mem (addr + i)

/-- `dataBlock_t`. -/
structure DataBlock where
  pData : ℕ
  size : ℕ
  deriving DecidableEq

variable {mem : Memory}

def DataBlock.bytes (mem : Memory) (b : DataBlock) : List UInt8 := load mem b.pData b.size

/-- The concatenation of the blocks. -/
def concat (mem : Memory) (bs : List DataBlock) : List UInt8 := bs.flatMap (·.bytes mem)

def sizes (bs : List DataBlock) : ℕ := (bs.map (·.size)).sum

@[simp] lemma load_length (addr size : ℕ) : (load mem addr size).length = size := by
  simp [load]

lemma load_add (addr m n : ℕ) :
    load mem addr (m + n) = load mem addr m ++ load mem (addr + m) n := by
  simp only [load, List.range_add, List.map_append, List.map_map]
  congr 1
  refine List.map_congr_left fun i _ => ?_
  show mem (addr + (m + i)) = mem (addr + m + i)
  rw [Nat.add_assoc]

lemma load_drop {addr size n : ℕ} (h : n ≤ size) :
    (load mem addr size).drop n = load mem (addr + n) (size - n) := by
  have hsize : size = n + (size - n) := by omega
  conv_lhs => rw [hsize, load_add]
  exact List.drop_left' (load_length _ _)

@[simp] lemma concat_cons (b : DataBlock) (bs : List DataBlock) :
    concat mem (b :: bs) = b.bytes mem ++ concat mem bs := rfl

@[simp] lemma sizes_nil : sizes [] = 0 := rfl

@[simp] lemma sizes_cons (b : DataBlock) (bs : List DataBlock) :
    sizes (b :: bs) = b.size + sizes bs := rfl

lemma concat_length (bs : List DataBlock) : (concat mem bs).length = sizes bs := by
  induction bs with
  | nil => rfl
  | cons b bs ih =>
    rw [concat_cons, List.length_append, ih, DataBlock.bytes, load_length, sizes_cons]

/-- Dropping at least a whole block. -/
lemma concat_drop_block {b : DataBlock} {n : ℕ} (bs : List DataBlock) (h : b.size ≤ n) :
    (concat mem (b :: bs)).drop n = (concat mem bs).drop (n - b.size) := by
  have hlen : (b.bytes mem).length = b.size := load_length _ _
  rw [concat_cons, List.drop_append, hlen, List.drop_eq_nil_of_le (by omega), List.nil_append]

/-- Dropping a part of the first block. -/
lemma concat_drop_part {b : DataBlock} {n : ℕ} (bs : List DataBlock) (h : n ≤ b.size) :
    (concat mem (b :: bs)).drop n = concat mem (⟨b.pData + n, b.size - n⟩ :: bs) := by
  have hlen : (b.bytes mem).length = b.size := load_length _ _
  rw [concat_cons, List.drop_append_of_le_length (by omega), concat_cons]
  exact congrArg (· ++ _) (load_drop h)

end Hbm.Blocks
