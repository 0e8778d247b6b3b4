import Hbm.Size
import Mathlib.Data.List.Induction
import Mathlib.Data.List.TakeWhile

/-!
The number reader of the C library, and `std::stoul`.

`strtoul` skips blanks, takes a sign and reads digits as far as they go. In base zero it reads the
literals of C. The characters are those of the C locale, `unsigned long` has 64 bits.
-/

namespace Hbm.Strtoul

open Hbm.Size

/-- What `c_str()` hands to the C library: the text up to a NUL. -/
def cStr (text : List Char) : List Char := text.takeWhile (·.toNat ≠ 0)

def isspace (c : Char) : Bool := c.toNat = 32 ∨ 9 ≤ c.toNat ∧ c.toNat ≤ 13

/-- The value of a digit; other characters are not one in any base. -/
def digit (c : Char) : ℕ :=
  if c.isDigit then c.toNat - 48
  else if c.isLower then c.toNat - 97 + 10
  else if c.isUpper then c.toNat - 65 + 10
  else 36

def digits (base : ℕ) (s : List Char) : List Char := s.takeWhile (digit · < base)

def value (base : ℕ) (ds : List Char) : ℕ := ds.foldl (fun n c => base * n + digit c) 0

/-- Whether the number is negated, and what comes behind the sign. -/
def sign : List Char → Bool × List Char
  | '-' :: s => (true, s)
  | '+' :: s => (false, s)
  | s => (false, s)

/-- What blanks and a sign leave. -/
def signed (s : List Char) : Bool × List Char := sign (s.dropWhile isspace)

/-- `0x` is a prefix in front of a hexadecimal digit only. -/
def hexPrefix : List Char → Bool
  | '0' :: x :: d :: _ => (x = 'x' ∨ x = 'X') ∧ digit d < 16
  | _ => false

/-- The base of the digits, and where they begin. -/
def radix (base : ℕ) (s : List Char) : ℕ × List Char :=
  if (base = 0 ∨ base = 16) ∧ hexPrefix s then (16, s.drop 2)
  else if base = 0 then (if s.head? = some '0' then 8 else 10, s)
  else (base, s)

/-- What `strtoul` returns, what `endptr` points to, and whether `errno` is `ERANGE`. -/
structure Result where
  value : ℕ
  rest : List Char
  erange : Bool

def ulongMax : ℕ := sizeMod - 1

def strtoul (s : List Char) (base : ℕ) : Result :=
  let start := radix base (signed s).2
  let ds := digits start.1 start.2
  let rest := start.2.drop ds.length
  let n := value start.1 ds
  if ds = [] then ⟨0, s, false⟩
  else if ulongMax < n then ⟨ulongMax, rest, true⟩
  else ⟨if (signed s).1 then sub 0 n else n, rest, false⟩

inductive Exception
  | invalid_argument
  | out_of_range
deriving DecidableEq

def stoul (str : List Char) (base : ℕ) : Except Exception ℕ :=
  let r := strtoul (cStr str) base
  if r.rest = cStr str then .error .invalid_argument
  else if r.erange then .error .out_of_range
  else .ok r.value

/-! ### Characters -/

variable {s t ds rest : List Char} {c : Char} {n k : ℕ}

lemma isDigit_iff : c.isDigit ↔ 48 ≤ c.toNat ∧ c.toNat ≤ 57 := by
  simp only [Char.isDigit, ge_iff_le, Bool.and_eq_true, decide_eq_true_eq, UInt32.le_iff_toNat_le]
  rfl

lemma digit_eq (h : c.isDigit) : digit c = c.toNat - 48 := if_pos h

lemma digit_lt_ten : digit c < 10 ↔ c.isDigit := by
  by_cases h : c.isDigit
  · have hc := isDigit_iff.mp h
    rw [digit_eq h]
    exact iff_of_true (by omega) h
  · refine iff_of_false ?_ h
    unfold digit
    split_ifs <;> omega

lemma not_isspace (h : c.isDigit) : isspace c = false := by
  have hc := isDigit_iff.mp h
  simp only [isspace, decide_eq_false_iff_not]
  omega

lemma sign_of_ne (hminus : c ≠ '-') (hplus : c ≠ '+') : sign (c :: s) = (false, c :: s) := by
  unfold sign
  split
  · next heq =>
    cases heq
    exact absurd rfl hminus
  · next heq =>
    cases heq
    exact absurd rfl hplus
  · rfl

lemma sign_of_isDigit (h : c.isDigit) : sign (c :: s) = (false, c :: s) := by
  refine sign_of_ne ?_ ?_
  · rintro rfl
    exact absurd h (by decide)
  · rintro rfl
    exact absurd h (by decide)

/-- A first part with the property ends where the rest begins without it. -/
lemma span_append {p : Char → Bool} (hs : ∀ c ∈ s, p c) (ht : ∀ c ∈ t.head?, ¬ p c) :
    (s ++ t).takeWhile p = s ∧ (s ++ t).dropWhile p = t := by
  rw [List.takeWhile_append_of_pos hs, List.dropWhile_append_of_pos hs]
  cases t with
  | nil => simp
  | cons c t =>
    have hc := ht c rfl
    simp [hc]

lemma head?_dropWhile {p : Char → Bool} : ∀ c ∈ (s.dropWhile p).head?, ¬ p c := by
  intro c hc
  have := List.head?_dropWhile_not p s
  rw [Option.mem_def.mp hc] at this
  simpa using this

lemma digits_ten (s : List Char) : digits 10 s = s.takeWhile Char.isDigit := by
  unfold digits
  congr 1
  funext c
  rw [Bool.eq_iff_iff, decide_eq_true_iff, digit_lt_ten]

/-! ### Values -/

/-- A digit up to 15 is read from its upper case letter. -/
lemma digit_digitChar {n : ℕ} (h : n < 16) : digit (Nat.digitChar n).toUpper = n := by
  have hall : ∀ n < 16, digit (Nat.digitChar n).toUpper = n := by decide
  exact hall n h

lemma value_concat (base : ℕ) (ds : List Char) (c : Char) :
    value base (ds ++ [c]) = base * value base ds + digit c := List.foldl_append

lemma value_append (base : ℕ) (ds es : List Char) :
    value base (ds ++ es) = base ^ es.length * value base ds + value base es := by
  induction es using List.reverseRecOn with
  | nil => simp [value]
  | append_singleton es c ih =>
    rw [← List.append_assoc, value_concat, value_concat, ih, List.length_append,
      List.length_singleton, Nat.pow_succ, Nat.mul_add, ← Nat.mul_assoc, Nat.add_assoc,
      Nat.mul_comm base]

lemma value_cons (base : ℕ) (c : Char) (ds : List Char) :
    value base (c :: ds) = base ^ ds.length * digit c + value base ds := by
  rw [← List.singleton_append, value_append]
  simp [value]

lemma value_lt {base : ℕ} (h : ∀ c ∈ ds, digit c < base) : value base ds < base ^ ds.length := by
  induction ds using List.reverseRecOn with
  | nil => exact Nat.one_pos
  | append_singleton ds c ih =>
    have hds := ih fun d hd => h d (List.mem_append_left _ hd)
    have hc := h c (List.mem_append_right _ (List.mem_singleton_self c))
    have hmul : base * (value base ds + 1) ≤ base * base ^ ds.length := Nat.mul_le_mul_left _ hds
    rw [value_concat, List.length_append, List.length_singleton, Nat.pow_succ,
      Nat.mul_comm (base ^ _)]
    rw [Nat.mul_add, Nat.mul_one] at hmul
    omega

/-! ### Numbers in base ten -/

/-- The text begins with blanks, a sign and all the digits that come next. -/
structure Numeral (s : List Char) (negative : Bool) (ds : List Char) : Prop where
  parts : ∃ blanks signs rest, cStr s = blanks ++ (signs ++ (ds ++ rest)) ∧
    (∀ c ∈ blanks, isspace c) ∧ (∀ c ∈ rest.head?, ¬ c.isDigit) ∧
    if negative then signs = ['-'] else signs = [] ∨ signs = ['+']
  nonempty : ds ≠ []
  digits : ∀ c ∈ ds, c.isDigit

/-- A number of 64 bits; a sign negates it modulo 2^64. -/
def Reads (s : List Char) (n : ℕ) : Prop :=
  ∃ negative ds, Numeral s negative ds ∧ value 10 ds < sizeMod ∧
    n = if negative then sub 0 (value 10 ds) else value 10 ds

variable {negative : Bool}

/-- The decimal digits that `strtoul` finds. -/
def decimals (s : List Char) : List Char := (signed s).2.takeWhile Char.isDigit

lemma strtoul_ten (s : List Char) : strtoul s 10 =
    if decimals s = [] then ⟨0, s, false⟩
    else if ulongMax < value 10 (decimals s) then
      ⟨ulongMax, (signed s).2.drop (decimals s).length, true⟩
    else ⟨if (signed s).1 then sub 0 (value 10 (decimals s)) else value 10 (decimals s),
      (signed s).2.drop (decimals s).length, false⟩ := by
  unfold decimals
  simp only [strtoul, radix, digits_ten, Nat.reduceEqDiff, or_self, false_and, if_false]

lemma sign_parts (s : List Char) : ∃ signs, s = signs ++ (sign s).2 ∧
    if (sign s).1 then signs = ['-'] else signs = [] ∨ signs = ['+'] := by
  unfold sign
  split
  · exact ⟨['-'], rfl, rfl⟩
  · exact ⟨['+'], rfl, .inr rfl⟩
  · exact ⟨[], rfl, .inl rfl⟩

/-- They are a numeral. -/
lemma numeral_decimals (h : decimals (cStr s) ≠ []) :
    Numeral s (signed (cStr s)).1 (decimals (cStr s)) := by
  obtain ⟨signs, hsigns, hneg⟩ := sign_parts ((cStr s).dropWhile isspace)
  refine ⟨⟨(cStr s).takeWhile isspace, signs, (signed (cStr s)).2.dropWhile Char.isDigit, ?_, ?_,
    head?_dropWhile, hneg⟩, h, ?_⟩
  · rw [decimals, List.takeWhile_append_dropWhile, signed, ← hsigns,
      List.takeWhile_append_dropWhile]
  · exact fun c hc => List.mem_takeWhile_imp hc
  · exact fun c hc => List.mem_takeWhile_imp hc

/-- They are the only numeral. -/
lemma Numeral.eq (h : Numeral s negative ds) :
    negative = (signed (cStr s)).1 ∧ ds = decimals (cStr s) := by
  obtain ⟨⟨blanks, signs, rest, hs, hblanks, hrest, hneg⟩, hne, hds⟩ := h
  obtain ⟨d, ds', rfl⟩ := List.exists_cons_of_ne_nil hne
  have hd := hds d (List.mem_cons_self ..)
  have hsigned : sign (signs ++ (d :: ds' ++ rest)) = (negative, d :: ds' ++ rest) := by
    cases negative with
    | true =>
      obtain rfl : signs = ['-'] := hneg
      rfl
    | false =>
      obtain rfl | rfl : signs = [] ∨ signs = ['+'] := hneg
      · exact sign_of_isDigit hd
      · rfl
  have hhead : ∀ c ∈ (signs ++ (d :: ds' ++ rest)).head?, ¬ isspace c := by
    intro c hc
    cases negative with
    | true =>
      obtain rfl : signs = ['-'] := hneg
      cases hc
      decide
    | false =>
      obtain rfl | rfl : signs = [] ∨ signs = ['+'] := hneg
      · cases hc
        rw [not_isspace hd]
        exact Bool.false_ne_true
      · cases hc
        decide
  rw [decimals, signed, hs, (span_append hblanks hhead).2, hsigned]
  exact ⟨rfl, (span_append hds hrest).1.symm⟩

/-- Where digits are read, `endptr` is not the beginning. -/
lemma drop_decimals_ne (h : decimals s ≠ []) : (signed s).2.drop (decimals s).length ≠ s := by
  intro hbegin
  have hpos := List.length_pos_iff.mpr h
  obtain ⟨signs, hsigns, -⟩ := sign_parts (s.dropWhile isspace)
  have hle : (s.dropWhile isspace).length ≤ s.length := (List.dropWhile_suffix _).length_le
  have hlen := congrArg List.length hsigns
  have hrest := congrArg List.length hbegin
  have hdecimals : (decimals s).length ≤ (signed s).2.length :=
    (List.takeWhile_prefix _).length_le
  rw [List.length_append] at hlen
  rw [List.length_drop] at hrest
  unfold signed at hrest hdecimals
  omega

/-- **`std::stoul` in base ten** returns what is read, and nothing else. -/
theorem stoul_eq_ok_iff : stoul s 10 = .ok n ↔ Reads s n := by
  unfold stoul
  rw [strtoul_ten]
  by_cases hnone : decimals (cStr s) = []
  · rw [if_pos hnone, if_pos rfl]
    refine iff_of_false nofun ?_
    rintro ⟨negative, ds, hnum, -⟩
    exact hnum.nonempty (hnum.eq.2.trans hnone)
  · have hreads : Reads s n ↔ value 10 (decimals (cStr s)) < sizeMod ∧
        n = if (signed (cStr s)).1 then sub 0 (value 10 (decimals (cStr s)))
          else value 10 (decimals (cStr s)) := by
      constructor
      · rintro ⟨negative, ds, hnum, h⟩
        obtain ⟨rfl, rfl⟩ := hnum.eq
        exact h
      · exact fun h => ⟨_, _, numeral_decimals hnone, h⟩
    have hmax : ulongMax + 1 = sizeMod := rfl
    rw [if_neg hnone, hreads]
    split
    · refine iff_of_false ?_ fun h => by omega
      rw [if_neg (drop_decimals_ne hnone)]
      exact nofun
    · rw [if_neg (drop_decimals_ne hnone), if_neg Bool.false_ne_true, Except.ok.injEq, eq_comm,
        and_iff_right (by omega)]

lemma Reads.unique (h : Reads s n) (h' : Reads s k) : n = k := by
  rw [← stoul_eq_ok_iff] at h h'
  exact Except.ok.inj (h.symm.trans h')

end Hbm.Strtoul
