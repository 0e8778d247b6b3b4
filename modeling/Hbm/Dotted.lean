import Hbm.Split
import Hbm.Strtoul
import Mathlib.Data.Nat.Bitwise

/-!
The dotted decimal form of an address.

It has four parts without a dot in them. Each is a decimal number, which `std::stoul` reads back.
-/

namespace Hbm.Dotted

open Hbm.Size Hbm.Split Hbm.Strtoul

/-- `std::to_string` of an unsigned number. -/
def to_string (n : ℕ) : List Char := Nat.toDigits 10 n

/-- The bytes of an address, beginning with the upper most. -/
def byte (a : BitVec 32) (i : ℕ) : ℕ := a.toNat / 256 ^ (3 - i) % 256

def bytes (a : BitVec 32) : List ℕ := (List.range 4).map (byte a)

/-- `inet_ntoa`, of an address in host byte order. -/
def inet_ntoa (a : BitVec 32) : List Char := ['.'].intercalate ((bytes a).map to_string)

/-! ### Decimal numbers -/

variable {n : ℕ} {a b m : BitVec 32}

lemma to_string_ne_nil (n : ℕ) : to_string n ≠ [] := Nat.toDigits_ne_nil

lemma isDigit_of_mem_to_string : ∀ c ∈ to_string n, c.isDigit :=
  fun _ => Nat.isDigit_of_mem_toDigits (by decide) (by decide)

/-- A number begins with a digit. -/
lemma exists_digit_cons (n : ℕ) :
    ∃ d ds, to_string n = d :: ds ∧ d.isDigit ∧ ∀ c ∈ ds, c.isDigit := by
  obtain ⟨d, ds, hds⟩ := List.exists_cons_of_ne_nil (to_string_ne_nil n)
  have hdigits : ∀ c ∈ d :: ds, c.isDigit := hds ▸ isDigit_of_mem_to_string
  obtain ⟨hd, hdigits⟩ := List.forall_mem_cons.mp hdigits
  exact ⟨d, ds, hds, hd, hdigits⟩

lemma value_ten {ds : List Char} (h : ∀ c ∈ ds, c.isDigit) :
    value 10 ds = Nat.ofDigitChars 10 ds 0 := by
  rw [value, Nat.ofDigitChars_eq_foldl]
  refine List.foldl_ext _ _ _ fun n c hc => ?_
  rw [digit_eq (h c hc)]
  rfl

@[simp] lemma value_to_string (n : ℕ) : value 10 (to_string n) = n := by
  rw [value_ten isDigit_of_mem_to_string]
  exact Nat.ofDigitChars_ten_toDigits

lemma to_string_injective : Function.Injective to_string :=
  fun n m h => by rw [← value_to_string n, h, value_to_string]

lemma digitChar_ne_zero : ∀ n < 10, 0 < n → some (Nat.digitChar n) ≠ some '0' := by decide

/-- No zeros in front. -/
lemma head?_to_string (hn : 0 < n) : (to_string n).head? ≠ some '0' := by
  induction n using Nat.strongRecOn with
  | ind n ih =>
    rcases Nat.lt_or_ge n 10 with hlt | hge
    · rw [to_string, Nat.toDigits_of_lt_base hlt]
      exact digitChar_ne_zero n hlt hn
    · have htail := ih (n / 10) (by omega) (by omega)
      rw [to_string, Nat.toDigits_of_base_le (by decide) hge,
        List.head?_append_of_ne_nil _ Nat.toDigits_ne_nil]
      exact htail

lemma length_to_string_le (h : n < 256) : (to_string n).length ≤ 3 :=
  (Nat.length_toDigits_le_iff (by decide) (by decide)).mpr (by omega)

lemma cStr_eq {s : List Char} (h : ∀ c ∈ s, c.toNat ≠ 0) : cStr s = s := by
  unfold cStr
  rw [List.takeWhile_eq_self_iff]
  simpa using h

lemma toNat_ne_zero {c : Char} (h : c.isDigit) : c.toNat ≠ 0 := by
  have hc := isDigit_iff.mp h
  omega

/-- Digits alone are a numeral. -/
lemma reads_of_digits {ds : List Char} (hne : ds ≠ []) (hds : ∀ c ∈ ds, c.isDigit)
    (h : value 10 ds < sizeMod) : Reads ds (value 10 ds) := by
  refine ⟨false, ds, ⟨⟨[], [], [], ?_, nofun, nofun, .inl rfl⟩, hne, hds⟩, h, rfl⟩
  rw [cStr_eq fun c hc => toNat_ne_zero (hds c hc), List.append_nil]
  rfl

/-- A number that was written is read. -/
lemma reads_to_string (h : n < sizeMod) : Reads (to_string n) n := by
  have hreads := reads_of_digits (to_string_ne_nil n) isDigit_of_mem_to_string
  rw [value_to_string] at hreads
  exact hreads h

/-! ### The parts -/

lemma byte_lt (a : BitVec 32) (i : ℕ) : byte a i < 256 := Nat.mod_lt _ (by decide)

lemma byte_and (a m : BitVec 32) (i : ℕ) : byte (a &&& m) i = byte a i &&& byte m i := by
  have hpow : 256 ^ (3 - i) = 2 ^ (8 * (3 - i)) := by
    rw [Nat.pow_mul]
  have h256 : 256 = 2 ^ 8 := rfl
  unfold byte
  rw [BitVec.toNat_and, hpow, Nat.and_div_two_pow, h256, Nat.and_mod_two_pow]

/-- An address is determined by its bytes. -/
lemma bytes_injective : Function.Injective bytes := by
  intro a b h
  have ha := a.isLt
  have hb := b.isLt
  simp [bytes, byte, List.range_succ] at h
  apply BitVec.eq_of_toNat_eq
  omega

lemma not_mem_to_string (n : ℕ) : '.' ∉ to_string n :=
  fun h => absurd (isDigit_of_mem_to_string _ h) (by decide)

lemma splitOn_join {bs : List ℕ} (hbs : bs ≠ []) :
    (['.'].intercalate (bs.map to_string)).splitOn '.' = bs.map to_string := by
  refine List.splitOn_intercalate _ ?_ (mt List.map_eq_nil_iff.mp hbs)
  intro part hpart
  obtain ⟨n, -, rfl⟩ := List.mem_map.mp hpart
  exact not_mem_to_string n

/-- The text of bytes determines them. -/
lemma join_injective {bs cs : List ℕ} (hbs : bs ≠ []) (hcs : cs ≠ [])
    (h : ['.'].intercalate (bs.map to_string) = ['.'].intercalate (cs.map to_string)) :
    bs = cs := by
  have hparts := congrArg (List.splitOn '.') h
  rw [splitOn_join hbs, splitOn_join hcs] at hparts
  exact List.map_injective_iff.mpr to_string_injective hparts

lemma bytes_ne_nil (a : BitVec 32) : bytes a ≠ [] := List.cons_ne_nil _ _

lemma splitOn_inet_ntoa (a : BitVec 32) :
    (inet_ntoa a).splitOn '.' = (bytes a).map to_string := splitOn_join (bytes_ne_nil a)

theorem inet_ntoa_injective : Function.Injective inet_ntoa :=
  fun a b h => bytes_injective (join_injective (bytes_ne_nil a) (bytes_ne_nil b) h)

lemma inet_ntoa_eq (a : BitVec 32) : inet_ntoa a =
    to_string (byte a 0) ++ '.' :: (to_string (byte a 1) ++ '.' ::
      (to_string (byte a 2) ++ '.' :: to_string (byte a 3))) := by
  simp [inet_ntoa, bytes, List.range_succ, List.intercalate_cons_cons]

lemma inet_ntoa_ne_nil (a : BitVec 32) : inet_ntoa a ≠ [] := by
  rw [inet_ntoa_eq]
  simp

lemma fits_inet_ntoa (a : BitVec 32) : Fits (inet_ntoa a) := by
  have h0 := length_to_string_le (byte_lt a 0)
  have h1 := length_to_string_le (byte_lt a 1)
  have h2 := length_to_string_le (byte_lt a 2)
  have h3 := length_to_string_le (byte_lt a 3)
  have hnpos : 100 < npos := by decide
  rw [Fits, inet_ntoa_eq]
  simp only [List.length_append, List.length_cons]
  omega

/-- There are as many dots as the text has parts behind the first one. -/
lemma length_splitOn (s : List Char) (c : Char) : (s.splitOn c).length = s.count c + 1 := by
  induction s with
  | nil => rfl
  | cons d s ih =>
    rw [List.splitOn_cons_eq_if_modifyHead, List.count_cons]
    split <;> simp [ih]

lemma count_inet_ntoa (a : BitVec 32) : (inet_ntoa a).count '.' = 3 := by
  have hlen := length_splitOn (inet_ntoa a) '.'
  rw [splitOn_inet_ntoa] at hlen
  simpa [bytes] using hlen.symm

end Hbm.Dotted
