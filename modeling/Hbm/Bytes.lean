import Mathlib.Data.List.Basic
import Mathlib.Data.UInt
import Mathlib.Tactic.Lemma

/-!
Little-endian numbers in a list of bytes.

A load answers `none` when one of its bytes lies outside the list. What has been put in front
of a list is loaded again, whatever follows.
-/

namespace Hbm.Bytes

def load8 (p : List UInt8) (off : ℕ) : Option ℕ := p[off]?.map UInt8.toNat

def load16 (p : List UInt8) (off : ℕ) : Option ℕ :=
  (load8 p off).bind fun a => (load8 p (off + 1)).map fun b => a + 2 ^ 8 * b

def load32 (p : List UInt8) (off : ℕ) : Option ℕ :=
  (load16 p off).bind fun a => (load16 p (off + 2)).map fun b => a + 2 ^ 16 * b

def bytes16 (x : ℕ) : List UInt8 := [UInt8.ofNat x, UInt8.ofNat (x / 2 ^ 8)]

def bytes32 (x : ℕ) : List UInt8 := bytes16 x ++ bytes16 (x / 2 ^ 16)

variable {p q : List UInt8} {off x : ℕ}

@[simp] lemma length_bytes16 (x : ℕ) : (bytes16 x).length = 2 := rfl

@[simp] lemma length_bytes32 (x : ℕ) : (bytes32 x).length = 4 := rfl

/-! ### What is inside -/

lemma load8_isSome : (load8 p off).isSome = true ↔ off + 1 ≤ p.length := by
  rw [load8, Option.isSome_map, Option.isSome_iff_ne_none, Ne, List.getElem?_eq_none_iff]
  omega

lemma load16_isSome : (load16 p off).isSome = true ↔ off + 2 ≤ p.length := by
  have hboth : (load16 p off).isSome = true ↔
      (load8 p off).isSome = true ∧ (load8 p (off + 1)).isSome = true := by
    unfold load16
    rcases load8 p off with _ | a <;> simp
  rw [hboth, load8_isSome, load8_isSome]
  omega

lemma load32_isSome : (load32 p off).isSome = true ↔ off + 4 ≤ p.length := by
  have hboth : (load32 p off).isSome = true ↔
      (load16 p off).isSome = true ∧ (load16 p (off + 2)).isSome = true := by
    unfold load32
    rcases load16 p off with _ | a <;> simp
  rw [hboth, load16_isSome, load16_isSome]
  omega

lemma load16_lt {a : ℕ} (h : load16 p off = some a) : a < 2 ^ 16 := by
  simp only [load16, load8, Option.bind_eq_some_iff, Option.map_eq_some_iff] at h
  obtain ⟨_, ⟨b, -, rfl⟩, _, ⟨c, -, rfl⟩, rfl⟩ := h
  have := b.toNat_lt
  have := c.toNat_lt
  omega

/-! ### Round trips -/

lemma load8_append_right (h : p.length ≤ off) : load8 (p ++ q) off = load8 q (off - p.length) := by
  rw [load8, load8, List.getElem?_append_right h]

lemma load16_append_right (h : p.length ≤ off) :
    load16 (p ++ q) off = load16 q (off - p.length) := by
  rw [load16, load16, load8_append_right h, load8_append_right (by omega),
    Nat.sub_add_comm h]

lemma load32_append_right (h : p.length ≤ off) :
    load32 (p ++ q) off = load32 q (off - p.length) := by
  rw [load32, load32, load16_append_right h, load16_append_right (by omega),
    Nat.sub_add_comm h]

lemma load16_bytes16 (h : x < 2 ^ 16) : load16 (bytes16 x ++ q) 0 = some x := by
  simp only [load16, load8, bytes16, List.cons_append, List.nil_append, List.getElem?_cons_zero,
    List.getElem?_cons_succ, Option.map_some, Option.bind_some, UInt8.toNat_ofNat']
  congr 1
  omega

lemma load32_bytes32 (h : x < 2 ^ 32) : load32 (bytes32 x ++ q) 0 = some x := by
  have h16 : load16 (bytes16 x ++ (bytes16 (x / 2 ^ 16) ++ q)) 0 = some (x % 2 ^ 16) := by
    have hb : bytes16 x = bytes16 (x % 2 ^ 16) := by
      simp only [bytes16, List.cons.injEq, and_true]
      constructor <;> apply UInt8.toNat_inj.mp <;> simp only [UInt8.toNat_ofNat'] <;> omega
    rw [hb, load16_bytes16 (Nat.mod_lt _ (by decide))]
  have h16' : load16 (bytes16 x ++ (bytes16 (x / 2 ^ 16) ++ q)) 2 = some (x / 2 ^ 16) := by
    rw [load16_append_right (by simp), length_bytes16, Nat.sub_self, load16_bytes16 (by omega)]
  rw [load32, bytes32, List.append_assoc, h16, h16']
  simp only [Option.bind_some, Option.map_some, Option.some.injEq]
  omega

lemma load16_of_eq {l : List UInt8} (h : l = p ++ (bytes16 x ++ q)) (hp : p.length = off)
    (hx : x < 2 ^ 16) : load16 l off = some x := by
  rw [h, load16_append_right (Nat.le_of_eq hp), hp, Nat.sub_self, load16_bytes16 hx]

lemma load32_of_eq {l : List UInt8} (h : l = p ++ (bytes32 x ++ q)) (hp : p.length = off)
    (hx : x < 2 ^ 32) : load32 l off = some x := by
  rw [h, load32_append_right (Nat.le_of_eq hp), hp, Nat.sub_self, load32_bytes32 hx]

end Hbm.Bytes
