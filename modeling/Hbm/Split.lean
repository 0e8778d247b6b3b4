import Hbm.Loop
import Hbm.Size
import Hbm.Substring
import Mathlib.Data.List.Basic

/-!
`hbm::string::split`, by a string and by a character.

Each turn of the loop takes what lies before the next separator. Where there is none, the position
of its end is `npos`, and what is left is shorter than the difference.
-/

namespace Hbm.Split

open Hbm.Size Hbm.Substring

/-! ### std::string -/

variable {α : Type*} [DecidableEq α]

def npos : ℕ := sizeMod - 1

/-- What a `std::string` can hold. -/
def Fits (text : List α) : Prop := text.length < npos

/-- `find`, and `none` for `npos`. -/
def find? (text p : List α) (pos : ℕ) : Option ℕ :=
  if pos ≤ text.length then (place p (text.drop pos)).map (pos + ·) else none

/-- `find` with a character. -/
def findChar? (text : List α) (c : α) (pos : ℕ) : Option ℕ :=
  if pos ≤ text.length then ((text.drop pos).findIdx? (· == c)).map (pos + ·) else none

/-- `substr`, and `none` where it throws `std::out_of_range`. -/
def substr (text : List α) (pos count : ℕ) : Option (List α) :=
  if pos ≤ text.length then some ((text.drop pos).take count) else none

/-! ### The loop -/

/-- One turn; `len` is the length of the separator. -/
def splitBody (text : List α) (find : ℕ → Option ℕ) (len : ℕ) :
    ℕ × List (List α) → (ℕ × List (List α)) ⊕ Option (List (List α))
  | (pos_start, result) =>
    let pos_end := (find pos_start).getD npos
    match substr text pos_start (sub pos_end pos_start) with
    | none => .inr none
    | some token =>
      let result := result ++ [token]
      if pos_end = npos then .inr (some result) else .inl (add pos_end len, result)

/-- The whole loop. A turn for every place in the text is enough. -/
def splitLoop (text : List α) (find : ℕ → Option ℕ) (len : ℕ) : Option (List (List α)) :=
  (Loop.run (splitBody text find len) (text.length + 1) (0, [])).join

def split (text separator : List α) : Option (List (List α)) :=
  if separator.length = 0 then some [text]
  else splitLoop text (find? text separator) separator.length

def splitChar (text : List α) (separator : α) : Option (List (List α)) :=
  splitLoop text (findChar? text separator) 1

/-! ### One turn -/

variable {text p : List α} {pos : ℕ} {result : List (List α)}

lemma place_singleton (c : α) (text : List α) : place [c] text = text.findIdx? (· == c) := by
  induction text with
  | nil => rfl
  | cons d text ih =>
    have hprefix : [c] <+: d :: text ↔ d = c := by
      rw [List.cons_prefix_cons, and_iff_left (List.nil_prefix), eq_comm]
    by_cases hd : d = c
    · simp [place, hd, List.findIdx?_cons]
    · simp [place, hprefix, hd, List.findIdx?_cons, ih]

lemma findChar?_eq (text : List α) (c : α) : findChar? text c = find? text [c] := by
  funext pos
  simp only [findChar?, find?, place_singleton]

/-- The rest holds no separator: it is the last piece. -/
lemma splitBody_none (hfits : Fits text) (hpos : pos ≤ text.length)
    (h : place p (text.drop pos) = none) :
    splitBody text (find? text p) p.length (pos, result) =
      .inr (some (result ++ [text.drop pos])) := by
  have hnpos : npos < sizeMod := Nat.sub_lt (by decide) (by decide)
  have hlen : (text.drop pos).length ≤ sub npos pos := by
    rw [sub_eq hnpos (by unfold Fits at hfits; omega), List.length_drop]
    unfold Fits at hfits
    omega
  simp only [splitBody, find?, if_pos hpos, h, Option.map_none, Option.getD_none, substr,
    List.take_of_length_le hlen, if_true]

/-- The next separator is `i` places further on. -/
lemma splitBody_some {i : ℕ} (hfits : Fits text) (hpos : pos ≤ text.length)
    (h : place p (text.drop pos) = some i) :
    splitBody text (find? text p) p.length (pos, result) =
      .inl (pos + i + p.length, result ++ [(text.drop pos).take i]) := by
  have hnpos : npos < sizeMod := Nat.sub_lt (by decide) (by decide)
  have hi := (place_spec h).2
  rw [List.length_drop] at hi
  unfold Fits at hfits
  have hsub : sub (pos + i) pos = i := by
    rw [sub_eq (by omega) (by omega), Nat.add_sub_cancel_left]
  have hadd : add (pos + i) p.length = pos + i + p.length := add_eq (by omega)
  have hne : pos + i ≠ npos := by omega
  simp only [splitBody, find?, if_pos hpos, h, Option.map_some, Option.getD_some, substr, hsub,
    hadd, if_neg hne]

/-! ### The pieces -/

/-- From a position on, the loop finds the pieces of the rest. -/
lemma run_cuts (hfits : Fits text) (hp : p ≠ []) (n : ℕ) (pos : ℕ) (result : List (List α))
    (hpos : pos ≤ text.length) (hn : text.length - pos < n) :
    ∃ ps, Cuts p (text.drop pos) ps ∧
      Loop.run (splitBody text (find? text p) p.length) n (pos, result) =
        some (some (result ++ ps)) := by
  induction n generalizing pos result with
  | zero => omega
  | succ n ih =>
    cases h : place p (text.drop pos) with
    | none =>
      exact ⟨[text.drop pos], .last (place_eq_none_iff.mp h),
        Loop.run_inr (splitBody_none hfits hpos h)⟩
    | some i =>
      have hi := (place_spec h).2
      rw [List.length_drop] at hi
      have hlen := List.length_pos_iff.mpr hp
      obtain ⟨ps, hps, hrun⟩ := ih (pos + i + p.length) (result ++ [(text.drop pos).take i])
        (by omega) (by omega)
      refine ⟨(text.drop pos).take i :: ps, cuts_of_place h ?_, ?_⟩
      · rwa [List.drop_drop, ← Nat.add_assoc]
      · rw [Loop.run_inl (splitBody_some hfits hpos h), hrun, List.append_assoc,
          List.singleton_append]

lemma splitLoop_cuts (hfits : Fits text) (hp : p ≠ []) :
    ∃ ps, splitLoop text (find? text p) p.length = some ps ∧ Cuts p text ps := by
  obtain ⟨ps, hps, hrun⟩ := run_cuts hfits hp (text.length + 1) 0 [] (Nat.zero_le _) (by omega)
  refine ⟨ps, ?_, hps⟩
  rw [splitLoop, hrun]
  rfl

/-- **`split` cuts the text** at the separators. -/
theorem split_cuts (hfits : Fits text) (hp : p ≠ []) :
    ∃ ps, split text p = some ps ∧ Cuts p text ps := by
  have hlen : p.length ≠ 0 := Nat.pos_iff_ne_zero.mp (List.length_pos_iff.mpr hp)
  rw [split, if_neg hlen]
  exact splitLoop_cuts hfits hp

/-- These pieces are the only ones. -/
lemma split_eq_some_iff (hfits : Fits text) (hp : p ≠ []) {ps : List (List α)} :
    split text p = some ps ↔ Cuts p text ps := by
  obtain ⟨qs, hqs, hcuts⟩ := split_cuts hfits hp
  rw [hqs, Option.some.injEq]
  constructor
  · rintro rfl
    exact hcuts
  · exact fun h => hcuts.unique h

/-- The two overloads agree. -/
lemma splitChar_eq_split (text : List α) (c : α) : splitChar text c = split text [c] := by
  rw [splitChar, findChar?_eq]
  rfl

/-- For a character the pieces are those of the library. -/
theorem splitChar_eq (hfits : Fits text) (c : α) : splitChar text c = some (text.splitOn c) := by
  obtain ⟨ps, hps, hcuts⟩ := split_cuts hfits (List.cons_ne_nil c [])
  rw [splitChar_eq_split, hps, ← hcuts.join,
    List.splitOn_intercalate c hcuts.not_mem hcuts.ne_nil]

/-- A non-empty list of texts without the character. -/
def Pieces (c : α) (ps : List (List α)) : Prop := ps ≠ [] ∧ ∀ piece ∈ ps, c ∉ piece

/-- **`split` by a character is a bijection** between the texts and the lists of pieces; joining is
its inverse. -/
theorem splitChar_bijection (hfits : Fits text) (c : α) :
    (∃ ps, splitChar text c = some ps ∧ Pieces c ps ∧ [c].intercalate ps = text) ∧
      ∀ ps, Pieces c ps → [c].intercalate ps = text → splitChar text c = some ps := by
  constructor
  · obtain ⟨ps, hps, hcuts⟩ := split_cuts hfits (List.cons_ne_nil c [])
    refine ⟨ps, (splitChar_eq_split text c).trans hps, ⟨hcuts.ne_nil, ?_⟩, hcuts.join⟩
    exact hcuts.not_mem
  · rintro ps ⟨hne, hno⟩ rfl
    rw [splitChar_eq hfits, List.splitOn_intercalate c hno hne]

/-- Empty pieces at both ends and in between. -/
theorem splitChar_bijection_empty :
    (∃ ps, splitChar ":a::".toList ':' = some ps ∧ Pieces ':' ps ∧
      [':'].intercalate ps = ":a::".toList) ∧
      ∀ ps, Pieces ':' ps → [':'].intercalate ps = ":a::".toList →
        splitChar ":a::".toList ':' = some ps :=
  splitChar_bijection (by unfold Fits npos sizeMod; decide) ':'

/-- What is promised of the pieces of a text. -/
structure Splits (text separator : List α) (ps : List (List α)) : Prop where
  nonempty : ps ≠ []
  join : separator.intercalate ps = text
  noSeparator : ∀ piece ∈ ps, ¬ separator <:+: piece
  /-- in a piece, the separator and the rest, the separator is first found behind the piece -/
  leftmost : ∀ before piece next after, ps = before ++ piece :: next :: after →
    find? (piece ++ separator ++ separator.intercalate (next :: after)) separator 0 =
      some piece.length

/-- **`split` by a string**: the pieces join to the text, hold no separator and are cut at the
leftmost places; a separator of one character splits as the character does, and an empty one not
at all. -/
theorem split_spec (hfits : Fits text) : split text [] = some [text] ∧
    ∀ separator ≠ [], ∃ ps, split text separator = some ps ∧ Splits text separator ps ∧
      ∀ c, separator = [c] → splitChar text c = some ps := by
  refine ⟨rfl, fun separator hne => ?_⟩
  obtain ⟨ps, hps, hcuts⟩ := split_cuts hfits hne
  refine ⟨ps, hps, ⟨hcuts.ne_nil, hcuts.join, hcuts.not_infix hne, ?_⟩, ?_⟩
  · rintro before piece next after rfl
    simp only [find?, Nat.zero_le, if_true, List.drop_zero, hcuts.leftmost, Option.map_some,
      Nat.zero_add]
  · rintro c rfl
    rw [splitChar_eq_split, hps]

/-- Separators that overlap, and at the end. -/
theorem split_spec_overlapping : split "a:::b::".toList [] = some ["a:::b::".toList] ∧
    ∀ separator ≠ [], ∃ ps, split "a:::b::".toList separator = some ps ∧
      Splits "a:::b::".toList separator ps ∧
        ∀ c, separator = [c] → splitChar "a:::b::".toList c = some ps :=
  split_spec (by unfold Fits npos sizeMod; decide)

example : split "a:::b::".toList "::".toList = some ["a".toList, ":b".toList, []] := by decide

end Hbm.Split
