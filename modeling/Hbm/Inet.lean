import Hbm.Dotted

/-!
`inet_aton` and `inet_addr` of the C library.

Each part of an address is a decimal, octal or hexadecimal literal of C. There may be less than four
of them; then the last one fills the bytes that are left. A blank ends the address, whatever comes
behind it.
-/

namespace Hbm.Inet

open Hbm.Size Hbm.Strtoul Hbm.Dotted

/-- A part of the address, and what comes behind it. -/
def part (cp : List Char) : Option (ℕ × List Char) :=
  if cp.head?.any Char.isDigit then
    let r := strtoul cp 0
    if r.erange ∨ 0xffffffff < r.value then none else some (r.value, r.rest)
  else none

/-- The end of the text, or a blank. -/
def isEnd (s : List Char) : Bool := s.head?.all isspace

/-- From a part on; `left` dots may come behind it, `res` is the address so far. -/
def atonFrom (left res : ℕ) (cp : List Char) : Option ℕ :=
  match part cp with
  | none => none
  | some (val, '.' :: cp) =>
    match left with
    | 0 => none
    | left + 1 => if 0xff < val then none else atonFrom left (res + val * 256 ^ (left + 1)) cp
  | some (val, rest) => if isEnd rest ∧ val < 256 ^ (left + 1) then some (res + val) else none

/-- `inet_aton`; the address is in host byte order, as `ntohl` makes it of `s_addr`. -/
def inet_aton (cp : List Char) : Option (BitVec 32) :=
  (atonFrom 3 0 (cStr cp)).map (BitVec.ofNat 32)

def INADDR_NONE : BitVec 32 := 0xffffffff

/-- `inet_addr`, in host byte order. -/
def inet_addr (cp : List Char) : BitVec 32 := (inet_aton cp).getD INADDR_NONE

/-! ### What is read from a part on -/

variable {n val left res v : ℕ} {cp rest : List Char}

lemma part_eq_some (h : part cp = some (val, rest)) :
    (strtoul cp 0).erange = false ∧ val = (strtoul cp 0).value ∧ rest = (strtoul cp 0).rest := by
  simp only [part, Option.ite_none_right_eq_some, Option.ite_none_left_eq_some, not_or,
    Bool.not_eq_true, Option.some.injEq, Prod.mk.injEq] at h
  exact ⟨h.2.1.1, h.2.2.1.symm, h.2.2.2.symm⟩

/-- A part and a dot, or the last part. -/
lemma atonFrom_cases (h : atonFrom left res cp = some v) : ∃ val rest, part cp = some (val, rest) ∧
    ((∃ l cp, left = l + 1 ∧ rest = '.' :: cp ∧ val ≤ 0xff ∧
        atonFrom l (res + val * 256 ^ (l + 1)) cp = some v) ∨
      val < 256 ^ (left + 1) ∧ v = res + val) := by
  unfold atonFrom at h
  split at h
  · cases h
  · next val cp hpart =>
    cases left with
    | zero => cases h
    | succ l =>
      refine ⟨val, _, hpart, .inl ⟨l, cp, rfl, rfl, ?_⟩⟩
      simp only [Option.ite_none_left_eq_some] at h
      exact ⟨Nat.not_lt.mp h.1, h.2⟩
  · next val rest _ hpart =>
    simp only [Option.ite_none_right_eq_some, Option.some.injEq] at h
    exact ⟨val, rest, hpart, .inr ⟨h.1.2, h.2.symm⟩⟩

/-- What comes behind only changes the bytes that are left. -/
lemma atonFrom_bounds (h : atonFrom left res cp = some v) :
    res ≤ v ∧ v < res + 256 ^ (left + 1) := by
  induction left generalizing res cp with
  | zero =>
    obtain ⟨val, rest, -, ⟨l, cp, hl, -⟩ | ⟨hlt, rfl⟩⟩ := atonFrom_cases h
    · omega
    · exact ⟨Nat.le_add_right _ _, by omega⟩
  | succ left ih =>
    obtain ⟨val, rest, -, ⟨l, cp, hl, -, hval, h⟩ | ⟨hlt, rfl⟩⟩ := atonFrom_cases h
    · obtain rfl : left = l := by omega
      obtain ⟨hle, hlt⟩ := ih h
      have hmul : val * 256 ^ (left + 1) ≤ 0xff * 256 ^ (left + 1) := Nat.mul_le_mul_right _ hval
      rw [Nat.pow_succ _ (left + 1)]
      omega
    · exact ⟨Nat.le_add_right _ _, by omega⟩

/-! ### Canonical parts -/

lemma signed_of_isDigit {c : Char} {s : List Char} (h : c.isDigit) :
    signed (c :: s) = (false, c :: s) := by
  rw [signed, List.dropWhile_cons, not_isspace h, if_neg Bool.false_ne_true, sign_of_isDigit h]

lemma strtoul_zero (hrest : ∀ c ∈ rest.head?, c = '.') :
    strtoul ('0' :: rest) 0 = ⟨0, rest, false⟩ := by
  have hhex : hexPrefix ('0' :: rest) = false := by
    cases rest with
    | nil => rfl
    | cons c rest =>
      obtain rfl := hrest c rfl
      cases rest <;> rfl
  have hds : digits 8 ('0' :: rest) = ['0'] := by
    cases rest with
    | nil => rfl
    | cons c rest =>
      obtain rfl := hrest c rfl
      rfl
  have hsigned := signed_of_isDigit (s := rest) (show '0'.isDigit by decide)
  simp [strtoul, hsigned, radix, hhex, hds, value, digit, ulongMax]

/-- Without a zero in front a literal is decimal. -/
lemma radix_zero (h : cp.head? ≠ some '0') : radix 0 cp = (10, cp) := by
  have hhex : hexPrefix cp = false := by
    unfold hexPrefix
    split
    · exact absurd rfl h
    · rfl
  simp [radix, hhex, h]

lemma strtoul_to_string (hn : 0 < n) (hmax : n ≤ ulongMax) (hrest : ∀ c ∈ rest.head?, c = '.') :
    strtoul (to_string n ++ rest) 0 = ⟨n, rest, false⟩ := by
  have hne := to_string_ne_nil n
  have hsigned : signed (to_string n ++ rest) = (false, to_string n ++ rest) := by
    obtain ⟨d, ds, hds, hd, -⟩ := exists_digit_cons n
    rw [hds, List.cons_append, signed_of_isDigit hd]
  have hradix : radix 0 (to_string n ++ rest) = (10, to_string n ++ rest) := by
    apply radix_zero
    rw [List.head?_append_of_ne_nil _ hne]
    exact head?_to_string hn
  have hds : digits 10 (to_string n ++ rest) = to_string n := by
    rw [digits_ten]
    refine (span_append isDigit_of_mem_to_string fun c hc => ?_).1
    rw [hrest c hc]
    decide
  simp only [strtoul, hsigned, hradix, hds, if_neg hne, value_to_string, List.drop_left,
    if_neg (Nat.not_lt.mpr hmax), Bool.false_eq_true, if_false]

lemma part_to_string (hn : n < 256) (hrest : ∀ c ∈ rest.head?, c = '.') :
    part (to_string n ++ rest) = some (n, rest) := by
  have hread : strtoul (to_string n ++ rest) 0 = ⟨n, rest, false⟩ := by
    rcases Nat.eq_zero_or_pos n with rfl | hpos
    · exact strtoul_zero hrest
    · have hmax : 256 ≤ ulongMax := by decide
      exact strtoul_to_string hpos (by omega) hrest
  have hdigit : (to_string n ++ rest).head?.any Char.isDigit := by
    obtain ⟨d, ds, hds, hd, -⟩ := exists_digit_cons n
    rw [hds]
    exact hd
  have hle : ¬ 0xffffffff < n := by omega
  simp only [part, if_pos hdigit, hread, hle, Bool.false_eq_true, or_self, if_false]

lemma atonFrom_dot (hn : n < 256) : atonFrom (left + 1) res (to_string n ++ '.' :: cp) =
    atonFrom left (res + n * 256 ^ (left + 1)) cp := by
  have hle : ¬ 0xff < n := by omega
  have hpart : part (to_string n ++ '.' :: cp) = some (n, '.' :: cp) :=
    part_to_string hn fun c hc => (Option.some.inj hc).symm
  rw [atonFrom, hpart]
  exact if_neg hle

lemma atonFrom_last (hn : n < 256) : atonFrom 0 res (to_string n) = some (res + n) := by
  have hpart : part (to_string n) = some (n, []) := by
    have h : part (to_string n ++ []) = some (n, []) := part_to_string hn nofun
    rwa [List.append_nil] at h
  rw [atonFrom, hpart]
  exact if_pos ⟨rfl, by omega⟩

lemma cStr_inet_ntoa (a : BitVec 32) : cStr (inet_ntoa a) = inet_ntoa a := by
  have hne : ∀ n, ∀ c ∈ to_string n, c.toNat ≠ 0 :=
    fun n c hc => toNat_ne_zero (isDigit_of_mem_to_string c hc)
  apply cStr_eq
  rw [inet_ntoa_eq]
  simp only [List.forall_mem_append, List.forall_mem_cons]
  exact ⟨hne _, by decide, hne _, by decide, hne _, by decide, hne _⟩

/-- **`inet_aton` reads the canonical form** of every address. -/
theorem inet_aton_inet_ntoa (a : BitVec 32) : inet_aton (inet_ntoa a) = some a := by
  have ha := a.isLt
  rw [inet_aton, cStr_inet_ntoa, inet_ntoa_eq, atonFrom_dot (byte_lt a 0),
    atonFrom_dot (byte_lt a 1), atonFrom_dot (byte_lt a 2), atonFrom_last (byte_lt a 3),
    Option.map_some]
  congr 1
  apply BitVec.eq_of_toNat_eq
  rw [BitVec.toNat_ofNat]
  unfold byte
  omega

lemma inet_addr_inet_ntoa (a : BitVec 32) : inet_addr (inet_ntoa a) = a := by
  rw [inet_addr, inet_aton_inet_ntoa, Option.getD_some]

example : inet_aton "0x7f.1".toList = some 0x7f000001 := by decide

end Hbm.Inet
