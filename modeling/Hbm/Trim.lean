import Hbm.Split
import Mathlib.Data.List.DropRight

/-!
The functions of `hbm::string` that trim a text, in place and in a copy.

All of them ask for the first or the last character that stays. Where there is none, the answer is
`npos`: erasing from the left takes it for a length, and erasing from the right looks at the first
character instead.
-/

namespace Hbm.Trim

open Hbm.Size Hbm.Split

/-! ### std::string -/

/-- `find_first_not_of` with a character. -/
def findFirstNotOf (text : List Char) (ch : Char) : ℕ :=
  (text.findIdx? (· != ch)).getD npos

/-- `find_last_not_of` with a character. -/
def findLastNotOf (text : List Char) (ch : Char) : ℕ :=
  ((text.reverse.findIdx? (· != ch)).map (text.length - 1 - ·)).getD npos

/-- `erase`, and `none` where it throws `std::out_of_range`. -/
def erase (text : List Char) (pos count : ℕ) : Option (List Char) :=
  if pos ≤ text.length then some (text.take pos ++ (text.drop pos).drop count) else none

/-- `text[0]`, which is the terminating NUL of an empty text. -/
def first (text : List Char) : Char := text.headD (Char.ofNat 0)

/-! ### The functions -/

def trim_left_if (text : List Char) (ch : Char) : Option (List Char) :=
  let start := findFirstNotOf text ch
  erase text 0 start

def trim_right_if (text : List Char) (ch : Char) : Option (List Char) :=
  let last := findLastNotOf text ch
  if last = npos then
    -- special case: the only character does match!
    some (if first text = ch then [] else text)
  else erase text (add last 1) npos

def trim_left (text : List Char) : Option (List Char) := trim_left_if text ' '

def trim_right (text : List Char) : Option (List Char) := trim_right_if text ' '

def trim (text : List Char) : Option (List Char) := (trim_left text).bind trim_right

def trim_copy (text : List Char) : Option (List Char) :=
  let start := findFirstNotOf text ' '
  if start = npos then some []
  else
    let last := findLastNotOf text ' '
    let length := add (sub last start) 1
    substr text start length

/-! ### What stays -/

variable {text : List Char} {ch : Char}

/-- Without the characters in front. -/
def dropLeft (ch : Char) (text : List Char) : List Char := text.dropWhile (· == ch)

/-- Without the characters at the end. -/
def dropRight (ch : Char) (text : List Char) : List Char := text.rdropWhile (· == ch)

lemma exists_append_dropLeft (ch : Char) (text : List Char) :
    ∃ a, text = List.replicate a ch ++ dropLeft ch text := by
  refine ⟨(text.takeWhile (· == ch)).length, ?_⟩
  have hall : ∀ c ∈ text.takeWhile (· == ch), c = ch := fun c hc => by
    simpa using List.mem_takeWhile_imp hc
  rw [← List.eq_replicate_of_mem hall, dropLeft, List.takeWhile_append_dropWhile]

lemma exists_dropRight_append (ch : Char) (text : List Char) :
    ∃ b, text = dropRight ch text ++ List.replicate b ch := by
  refine ⟨(text.rtakeWhile (· == ch)).length, ?_⟩
  have hall : ∀ c ∈ text.rtakeWhile (· == ch), c = ch := fun c hc => by
    simpa using List.mem_rtakeWhile_imp hc
  rw [← List.eq_replicate_of_mem hall, dropRight, List.rdropWhile_append_rtakeWhile]

lemma head?_dropLeft (ch : Char) (text : List Char) : (dropLeft ch text).head? ≠ some ch := by
  intro h
  have hnot := List.head?_dropWhile_not (· == ch) text
  rw [dropLeft] at h
  rw [h] at hnot
  simp at hnot

lemma getLast?_dropRight (ch : Char) (text : List Char) :
    (dropRight ch text).getLast? ≠ some ch := by
  intro h
  have hne : dropRight ch text ≠ [] := by
    rintro hnil
    simp [hnil] at h
  rw [List.getLast?_eq_getLast_of_ne_nil hne, Option.some_inj] at h
  exact List.rdropWhile_last_not (· == ch) text hne (beq_iff_eq.mpr h)

/-- What is left of a text when the character is taken away from both ends. -/
def Bare (ch : Char) (s : List Char) : Prop := s = [] ∨ s.head? ≠ some ch ∧ s.getLast? ≠ some ch

lemma exists_bare (ch : Char) (text : List Char) :
    ∃ a b s, text = List.replicate a ch ++ s ++ List.replicate b ch ∧ Bare ch s := by
  obtain ⟨a, ha⟩ := exists_append_dropLeft ch text
  obtain ⟨b, hb⟩ := exists_dropRight_append ch (dropLeft ch text)
  refine ⟨a, b, dropRight ch (dropLeft ch text), ?_, ?_⟩
  · rw [List.append_assoc, ← hb]
    exact ha
  · by_cases hs : dropRight ch (dropLeft ch text) = []
    · exact .inl hs
    · refine .inr ⟨fun h => head?_dropLeft ch text ?_, getLast?_dropRight ch _⟩
      rw [hb, List.head?_append_of_ne_nil _ hs, h]

/-! ### The functions on a text of one character, and around a text that stays -/

lemma findIdx?_replicate (a : ℕ) (ch : Char) :
    (List.replicate a ch).findIdx? (· != ch) = none := by
  simp

lemma findIdx?_append (a : ℕ) (hne : text ≠ []) (h : text.head? ≠ some ch) :
    (List.replicate a ch ++ text).findIdx? (· != ch) = some a := by
  obtain ⟨c, rest, rfl⟩ := List.exists_cons_of_ne_nil hne
  have hc : (c != ch) = true := by simpa using h
  simp [List.findIdx?_append, List.findIdx?_cons, hc]

lemma findFirstNotOf_replicate (a : ℕ) (ch : Char) :
    findFirstNotOf (List.replicate a ch) ch = npos := by
  rw [findFirstNotOf, findIdx?_replicate, Option.getD_none]

lemma findLastNotOf_replicate (a : ℕ) (ch : Char) :
    findLastNotOf (List.replicate a ch) ch = npos := by
  rw [findLastNotOf, List.reverse_replicate, findIdx?_replicate, Option.map_none,
    Option.getD_none]

lemma findFirstNotOf_append (a : ℕ) (hne : text ≠ []) (h : text.head? ≠ some ch) :
    findFirstNotOf (List.replicate a ch ++ text) ch = a := by
  rw [findFirstNotOf, findIdx?_append a hne h, Option.getD_some]

lemma findLastNotOf_append (b : ℕ) (hne : text ≠ []) (h : text.getLast? ≠ some ch) :
    findLastNotOf (text ++ List.replicate b ch) ch = text.length - 1 := by
  have hrev := findIdx?_append b (List.reverse_ne_nil_iff.mpr hne) (by rwa [List.head?_reverse])
  rw [findLastNotOf, List.reverse_append, List.reverse_replicate, hrev, Option.map_some,
    Option.getD_some, List.length_append, List.length_replicate]
  omega

lemma trim_left_if_replicate {a : ℕ} (hfits : Fits (List.replicate a ch)) :
    trim_left_if (List.replicate a ch) ch = some [] := by
  rw [Fits, List.length_replicate] at hfits
  rw [trim_left_if, findFirstNotOf_replicate, erase, if_pos (Nat.zero_le _)]
  simp [Nat.sub_eq_zero_of_le hfits.le]

lemma trim_right_if_replicate (a : ℕ) (ch : Char) :
    trim_right_if (List.replicate a ch) ch = some [] := by
  rw [trim_right_if, findLastNotOf_replicate, if_pos rfl]
  cases a with
  | zero => simp
  | succ a => rw [List.replicate_succ, first, List.headD_cons, if_pos rfl]

lemma trim_left_if_append (a : ℕ) (hne : text ≠ []) (h : text.head? ≠ some ch) :
    trim_left_if (List.replicate a ch ++ text) ch = some text := by
  rw [trim_left_if, findFirstNotOf_append a hne h, erase, if_pos (Nat.zero_le _)]
  simp

lemma trim_right_if_append {b : ℕ} (hfits : Fits (text ++ List.replicate b ch))
    (hne : text ≠ []) (h : text.getLast? ≠ some ch) :
    trim_right_if (text ++ List.replicate b ch) ch = some text := by
  have hpos := List.length_pos_iff.mpr hne
  have hnpos : npos < sizeMod := Nat.sub_lt (by decide) (by decide)
  rw [Fits, List.length_append, List.length_replicate] at hfits
  have hadd : add (text.length - 1) 1 = text.length := by
    rw [add_eq (by omega), Nat.sub_add_cancel hpos]
  have hdrop : (List.replicate b ch).drop npos = [] :=
    List.drop_eq_nil_of_le (by rw [List.length_replicate]; omega)
  rw [trim_right_if, findLastNotOf_append b hne h, if_neg (by omega), hadd, erase,
    if_pos (by rw [List.length_append]; omega), List.take_left, List.drop_left, hdrop,
    List.append_nil]

lemma trim_copy_replicate (a : ℕ) : trim_copy (List.replicate a ' ') = some [] := by
  rw [trim_copy, findFirstNotOf_replicate, if_pos rfl]

lemma trim_copy_append {a b : ℕ} (hfits : Fits (List.replicate a ' ' ++ text ++
    List.replicate b ' ')) (hne : text ≠ []) (hhead : text.head? ≠ some ' ')
    (hlast : text.getLast? ≠ some ' ') :
    trim_copy (List.replicate a ' ' ++ text ++ List.replicate b ' ') = some text := by
  have hpos := List.length_pos_iff.mpr hne
  have hnpos : npos < sizeMod := Nat.sub_lt (by decide) (by decide)
  have hfirst : findFirstNotOf (List.replicate a ' ' ++ text ++ List.replicate b ' ') ' ' = a := by
    rw [List.append_assoc]
    exact findFirstNotOf_append a (by simp [hne]) (by rwa [List.head?_append_of_ne_nil _ hne])
  have hend := findLastNotOf_append b (by simp [hne] : List.replicate a ' ' ++ text ≠ [])
    (by rwa [List.getLast?_append_of_ne_nil _ hne])
  rw [Fits, List.length_append, List.length_append, List.length_replicate,
    List.length_replicate] at hfits
  have hlength : add (sub (a + text.length - 1) a) 1 = text.length := by
    rw [sub_eq (by omega) (by omega), add_eq (by omega)]
    omega
  simp only [trim_copy, hfirst, if_neg (show ¬ a = npos by omega), hend, List.length_append,
    List.length_replicate, hlength]
  rw [substr, if_pos (by simp), List.append_assoc]
  simp

/-! ### The result -/

lemma trimmed {a b : ℕ} {s : List Char}
    (hfits : Fits (List.replicate a ch ++ s ++ List.replicate b ch)) (hs : Bare ch s) :
    (trim_left_if (List.replicate a ch ++ s ++ List.replicate b ch) ch).bind
        (trim_right_if · ch) = some s ∧
      (trim_right_if (List.replicate a ch ++ s ++ List.replicate b ch) ch).bind
        (trim_left_if · ch) = some s := by
  by_cases hne : s = []
  · subst hne
    rw [List.append_nil, ← List.replicate_add] at hfits ⊢
    have hnil : Fits (List.replicate 0 ch) := Nat.lt_of_le_of_lt (by simp) hfits
    rw [trim_left_if_replicate hfits, trim_right_if_replicate]
    exact ⟨trim_right_if_replicate 0 ch, trim_left_if_replicate hnil⟩
  · obtain ⟨hhead, hlast⟩ := hs.resolve_left hne
    have hright := trim_right_if_append hfits (by simp [hne])
      (by rwa [List.getLast?_append_of_ne_nil _ hne])
    rw [hright, List.append_assoc, trim_left_if_append a (by simp [hne])
      (by rwa [List.head?_append_of_ne_nil _ hne])]
    refine ⟨trim_right_if_append ?_ hne hlast, trim_left_if_append a hne hhead⟩
    unfold Fits at hfits ⊢
    simp only [List.length_append] at hfits ⊢
    omega

lemma trim_copy_trimmed {a b : ℕ} {s : List Char}
    (hfits : Fits (List.replicate a ' ' ++ s ++ List.replicate b ' ')) (hs : Bare ' ' s) :
    trim_copy (List.replicate a ' ' ++ s ++ List.replicate b ' ') = some s := by
  by_cases hne : s = []
  · subst hne
    rw [List.append_nil, ← List.replicate_add]
    exact trim_copy_replicate (a + b)
  · exact trim_copy_append hfits hne (hs.resolve_left hne).1 (hs.resolve_left hne).2

/-- **Trimming in place and in a copy agree.** Both give the text without the blanks around it,
and trimming the result again changes nothing. For every character it does not matter which end is
trimmed first. -/
theorem trim_spec (t : List Char) (hfits : Fits t) :
    ∃ s, trim t = some s ∧ trim_copy t = some s ∧
      (∃ a b, t = List.replicate a ' ' ++ s ++ List.replicate b ' ') ∧
      (s = [] ∨ s.head? ≠ some ' ' ∧ s.getLast? ≠ some ' ') ∧
      trim s = some s ∧ trim_copy s = some s ∧
      ∀ ch, ∃ r, (trim_left_if t ch).bind (trim_right_if · ch) = some r ∧
        (trim_right_if t ch).bind (trim_left_if · ch) = some r ∧ (ch = ' ' → r = s) := by
  obtain ⟨a, b, s, rfl, hs⟩ := exists_bare ' ' t
  have hself : List.replicate 0 ' ' ++ s ++ List.replicate 0 ' ' = s := List.append_nil s
  have hshort : Fits (List.replicate 0 ' ' ++ s ++ List.replicate 0 ' ') := by
    refine Nat.lt_of_le_of_lt ?_ hfits
    simp
    omega
  have hagain := (trimmed hshort hs).1
  have hcopy := trim_copy_trimmed hshort hs
  rw [hself] at hagain hcopy
  refine ⟨s, (trimmed hfits hs).1, trim_copy_trimmed hfits hs, ⟨a, b, rfl⟩, hs, hagain, hcopy,
    fun ch => ?_⟩
  by_cases hch : ch = ' '
  · subst hch
    exact ⟨s, (trimmed hfits hs).1, (trimmed hfits hs).2, fun _ => rfl⟩
  · obtain ⟨a', b', r, heq, hr⟩ :=
      exists_bare ch (List.replicate a ' ' ++ s ++ List.replicate b ' ')
    rw [heq] at hfits ⊢
    exact ⟨r, (trimmed hfits hr).1, (trimmed hfits hr).2, fun h => absurd h hch⟩

/-- A text with one character more at each end. -/
theorem trim_spec_blanks : ∃ s, trim [' ', 'a', ' '] = some s ∧ trim_copy [' ', 'a', ' '] = some s ∧
    (∃ a b, [' ', 'a', ' '] = List.replicate a ' ' ++ s ++ List.replicate b ' ') ∧
    (s = [] ∨ s.head? ≠ some ' ' ∧ s.getLast? ≠ some ' ') ∧
    trim s = some s ∧ trim_copy s = some s ∧
    ∀ ch, ∃ r, (trim_left_if [' ', 'a', ' '] ch).bind (trim_right_if · ch) = some r ∧
      (trim_right_if [' ', 'a', ' '] ch).bind (trim_left_if · ch) = some r ∧ (ch = ' ' → r = s) :=
  trim_spec [' ', 'a', ' '] (by unfold Fits npos sizeMod; decide)

end Hbm.Trim
