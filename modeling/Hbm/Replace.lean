import Hbm.Split

/-!
`hbm::string::replace` by a string.

A turn of the loop replaces one occurrence and goes on `search.length()` characters behind its
beginning. With a shorter substitute this leaves out characters of the text that come next. With a
longer one it leads into the substitute, where `search` may be found again.
-/

namespace Hbm.Replace

open Hbm.Substring Hbm.Split

variable {α : Type*} [DecidableEq α]

/-- One turn of the loop; it leaves with the text. -/
def replaceBody (search substitute : List α) : List α × ℕ → (List α × ℕ) ⊕ List α
  | (text, position) =>
    match find? text search position with
    | none => .inr text
    | some position =>
      .inl (text.take position ++ substitute ++ text.drop (position + search.length),
        position + search.length)

/-- `replace` returns the text `r`. -/
def Replaces (text search substitute r : List α) : Prop :=
  Loop.Ends (replaceBody search substitute) (text, 0) r

/-- What comes out of the rest of a text, behind the position. -/
inductive Out (search substitute : List α) : List α → List α → Prop
  | stop {rest} : place search rest = none → Out search substitute rest rest
  | turn {rest i r} : place search rest = some i →
      Out search substitute
        ((substitute ++ rest.drop (i + search.length)).drop search.length) r →
      Out search substitute rest
        (rest.take i ++ (substitute ++ rest.drop (i + search.length)).take search.length ++ r)

/-! ### The loop without the position -/

variable {text search substitute rest r : List α} {pos i : ℕ}

lemma find?_eq (hne : search ≠ []) (text : List α) (pos : ℕ) :
    find? text search pos = (place search (text.drop pos)).map (pos + ·) := by
  unfold find?
  split
  · rfl
  · next hpos =>
    rw [List.drop_of_length_le (by omega), place_eq_none_iff.mpr, Option.map_none]
    intro hin
    exact hne (List.infix_nil.mp hin)

lemma replaceBody_none (hne : search ≠ []) (h : place search (text.drop pos) = none) :
    replaceBody search substitute (text, pos) = .inr text := by
  simp only [replaceBody, find?_eq hne, h, Option.map_none]

lemma replaceBody_some (hne : search ≠ []) (h : place search (text.drop pos) = some i) :
    replaceBody search substitute (text, pos) =
      .inl (text.take (pos + i) ++ substitute ++ text.drop (pos + i + search.length),
        pos + i + search.length) := by
  simp only [replaceBody, find?_eq hne, h, Option.map_some]

variable (substitute) in
/-- The text after a turn, before the position and behind it. -/
lemma turn_parts (hne : search ≠ []) (h : place search (text.drop pos) = some i) :
    (text.take (pos + i) ++ substitute ++ text.drop (pos + i + search.length)).take
        (pos + i + search.length) = text.take pos ++ ((text.drop pos).take i ++
          (substitute ++ (text.drop pos).drop (i + search.length)).take search.length) ∧
      (text.take (pos + i) ++ substitute ++ text.drop (pos + i + search.length)).drop
        (pos + i + search.length) =
          (substitute ++ (text.drop pos).drop (i + search.length)).drop search.length := by
  have hi := (place_spec h).2
  rw [List.length_drop] at hi
  have hpos := List.length_pos_iff.mpr hne
  have hlen : (text.take (pos + i)).length = pos + i := List.length_take_of_le (by omega)
  have hdrop : (text.drop pos).drop (i + search.length) = text.drop (pos + i + search.length) := by
    rw [List.drop_drop, Nat.add_assoc]
  rw [hdrop, List.append_assoc]
  constructor
  · rw [List.take_append, hlen, List.take_of_length_le (by omega), Nat.add_sub_cancel_left,
      List.take_add, List.append_assoc]
  · rw [List.drop_append, hlen, List.drop_of_length_le (by omega), Nat.add_sub_cancel_left,
      List.nil_append]

/-- The loop makes of a text what comes before the position, and what comes out of the rest. -/
lemma ends_iff_out (hne : search ≠ []) :
    Loop.Ends (replaceBody search substitute) (text, pos) r ↔
      ∃ o, Out search substitute (text.drop pos) o ∧ r = text.take pos ++ o := by
  constructor
  · rintro ⟨fuel, hrun⟩
    induction fuel generalizing text pos with
    | zero => cases hrun
    | succ fuel ih =>
      cases h : place search (text.drop pos) with
      | none =>
        rw [Loop.run_inr (replaceBody_none hne h)] at hrun
        cases hrun
        exact ⟨r.drop pos, .stop h, (List.take_append_drop pos r).symm⟩
      | some i =>
        rw [Loop.run_inl (replaceBody_some hne h)] at hrun
        obtain ⟨o, ho, rfl⟩ := ih hrun
        obtain ⟨htake, hdrop⟩ := turn_parts substitute hne h
        rw [hdrop] at ho
        refine ⟨_, .turn h ho, ?_⟩
        rw [htake, List.append_assoc]
  · rintro ⟨o, ho, rfl⟩
    generalize hrest : text.drop pos = rest at ho
    induction ho generalizing text pos with
    | stop h =>
      subst hrest
      rw [List.take_append_drop, Loop.ends_iff_of_inr (replaceBody_none hne h)]
    | @turn rest i o h ho ih =>
      subst hrest
      obtain ⟨htake, hdrop⟩ := turn_parts substitute hne h
      rw [Loop.ends_iff_of_inl (replaceBody_some hne h), ← List.append_assoc, ← htake]
      exact ih hdrop

/-- `replace` begins in front of the text. -/
lemma replaces_iff_out (hne : search ≠ []) :
    Replaces text search substitute r ↔ Out search substitute text r := by
  rw [Replaces, ends_iff_out hne]
  simp

/-! ### Whether it ends -/

/-- An empty string is found in front of the text, again and again. -/
lemma not_replaces_empty : ¬ Replaces text [] substitute r := by
  refine Loop.not_ends_of_inv (I := fun s => s.2 = 0) (fun s hs => ?_) rfl
  obtain ⟨text, position⟩ := s
  obtain rfl : position = 0 := hs
  have hfind : find? text [] 0 = some 0 := by
    cases text <;> simp [find?, place]
  simp only [replaceBody, hfind]
  exact ⟨_, rfl, rfl⟩

/-- Where `search` is in the part of the substitute that the loop sees again, it always finds it. -/
lemma not_out (hsub : search <:+: substitute.drop search.length) (h : search <:+: rest) :
    ¬ Out search substitute rest r := by
  intro ho
  induction ho with
  | stop hno => exact place_eq_none_iff.mp hno h
  | @turn rest i r _ _ ih =>
    refine ih (hsub.trans ?_)
    rw [List.drop_append]
    exact (List.prefix_append _ _).isInfix

/-- Otherwise what is found ends in the text behind the substitute. -/
lemma turn_passes {tail : List α} (hsub : ¬ search <:+: substitute.drop search.length)
    (h : place search ((substitute ++ tail).drop search.length) = some i) :
    substitute.length < search.length + (i + search.length) := by
  by_contra hle
  obtain ⟨-, hp, -⟩ := place_eq_some_iff.mp h
  rw [List.drop_append_of_le_length (by omega), List.drop_append_of_le_length (by simp; omega)]
    at hp
  apply hsub
  refine infix_iff_drop.mpr
    ⟨i, List.prefix_of_prefix_length_le hp (List.prefix_append _ _) ?_⟩
  simp only [List.length_drop]
  omega

/-- So each turn takes something of this text. -/
lemma exists_out_turn (hsub : ¬ search <:+: substitute.drop search.length) (tail : List α) :
    ∃ r, Out search substitute ((substitute ++ tail).drop search.length) r := by
  induction hn : tail.length using Nat.strongRecOn generalizing tail with
  | ind n ih =>
    subst hn
    cases h : place search ((substitute ++ tail).drop search.length) with
    | none => exact ⟨_, .stop h⟩
    | some i =>
      have hpass := turn_passes hsub h
      have hlen := (place_spec h).2
      simp only [List.length_drop, List.length_append] at hlen
      have hdrop : ((substitute ++ tail).drop search.length).drop (i + search.length) =
          tail.drop (search.length + (i + search.length) - substitute.length) := by
        rw [List.drop_drop, List.drop_append, List.drop_of_length_le (by omega), List.nil_append]
      have hlt : (tail.drop (search.length + (i + search.length) - substitute.length)).length <
          tail.length := by
        rw [List.length_drop]
        omega
      obtain ⟨r, hr⟩ := ih _ hlt _ rfl
      exact ⟨_, .turn h (hdrop ▸ hr)⟩

lemma exists_out_iff (text : List α) : (∃ r, Out search substitute text r) ↔
    ¬ search <:+: text ∨ ¬ search <:+: substitute.drop search.length := by
  constructor
  · rintro ⟨r, hr⟩
    by_contra hboth
    push Not at hboth
    exact not_out hboth.2 hboth.1 hr
  · rintro (hno | hsub)
    · exact ⟨text, .stop (place_eq_none_iff.mpr hno)⟩
    · cases h : place search text with
      | none => exact ⟨text, .stop h⟩
      | some i =>
        obtain ⟨r, hr⟩ := exists_out_turn hsub (text.drop (i + search.length))
        exact ⟨_, .turn h hr⟩

/-- **`replace` ends** exactly if there is something to search for, and if this is not in the text,
or not in the substitute behind the first `search.length()` characters. -/
theorem ends_iff (text search substitute : List α) : (∃ r, Replaces text search substitute r) ↔
    search ≠ [] ∧ (¬ search <:+: text ∨ ¬ search <:+: substitute.drop search.length) := by
  by_cases hne : search = []
  · subst hne
    exact iff_of_false (fun ⟨_, hr⟩ => not_replaces_empty hr) fun h => h.1 rfl
  · rw [and_iff_right hne, ← exists_out_iff]
    exact exists_congr fun r => replaces_iff_out hne

/-- An empty string in `a`, which stays as it is; and `a` itself, which is in what it is replaced
by. -/
theorem never_ends :
    (¬ ∃ r, Replaces ['a'] [] [] r) ∧ ¬ ∃ r, Replaces ['a'] ['a'] ['b', 'a'] r := by
  constructor
  · rw [ends_iff]
    exact fun h => h.1 rfl
  · rw [ends_iff]
    decide

/-! ### What comes out -/

/-- If the loop ends, the text has its pieces joined with the substitute. -/
def Right (text search substitute : List α) : Prop :=
  ∀ r ps, Replaces text search substitute r → Cuts search text ps → r = substitute.intercalate ps

/-- Behind each substitute the loop next finds what the text has next: `ps` are the pieces that
follow it. -/
def Clear (search substitute : List α) : List (List α) → Prop
  | [] => True
  | [piece] => ¬ search <:+: (substitute ++ piece).drop search.length
  | piece :: ps =>
    search.length ≤ (substitute ++ piece).length ∧
      place search ((substitute ++ piece).drop search.length ++ search) =
        some ((substitute ++ piece).drop search.length).length ∧
      Clear search substitute ps

/-- The substitute is not shorter. What is in it behind the first `search.length()` characters
contains `search`, and then the loop ends only where there is nothing to replace, or it does not
end like `search` begins. -/
def Faithful (search substitute : List α) : Prop :=
  search.length ≤ substitute.length ∧ (search <:+: substitute.drop search.length ∨
    ∀ u ≠ [], u <:+ substitute.drop search.length → ¬ u <+: search)

variable {ps : List (List α)} {piece : List α}

lemma clear_cons (hps : ps ≠ []) : Clear search substitute (piece :: ps) ↔
    search.length ≤ (substitute ++ piece).length ∧
      place search ((substitute ++ piece).drop search.length ++ search) =
        some ((substitute ++ piece).drop search.length).length ∧
      Clear search substitute ps := by
  cases ps with
  | nil => exact absurd rfl hps
  | cons next ps => exact Iff.rfl

/-- A turn that replaces what comes behind `piece`. -/
lemma out_piece (hplace : place search (piece ++ search ++ rest) = some piece.length)
    (hr : Out search substitute ((substitute ++ rest).drop search.length) r) :
    Out search substitute (piece ++ search ++ rest)
      (piece ++ ((substitute ++ rest).take search.length ++ r)) := by
  have hdrop : (piece ++ search ++ rest).drop (piece.length + search.length) = rest := by
    rw [← List.length_append, List.drop_left]
  have htake : (piece ++ search ++ rest).take piece.length = piece := by
    rw [List.append_assoc, List.take_left]
  rw [← hdrop] at hr
  have hturn := Out.turn hplace hr
  rwa [hdrop, htake, List.append_assoc piece (List.take _ _)] at hturn

/-- From a substitute on, where the pieces are clear. -/
lemma out_of_clear (hcuts : Cuts search rest ps) (hclear : Clear search substitute ps) :
    (substitute ++ rest).take search.length =
        (substitute ++ substitute.intercalate ps).take search.length ∧
      Out search substitute ((substitute ++ rest).drop search.length)
        ((substitute ++ substitute.intercalate ps).drop search.length) := by
  induction hcuts with
  | last _ =>
    rw [List.intercalate_singleton]
    exact ⟨rfl, .stop (place_eq_none_iff.mpr hclear)⟩
  | @cut piece rest ps _ hcuts ih =>
    obtain ⟨hlen, hplace, hclear⟩ := (clear_cons hcuts.ne_nil).mp hclear
    obtain ⟨htake, hout⟩ := ih hclear
    have hout := out_piece (place_append hplace) hout
    rw [htake, List.take_append_drop] at hout
    have hjoin : substitute ++ substitute.intercalate (piece :: ps) =
        substitute ++ piece ++ (substitute ++ substitute.intercalate ps) := by
      rw [List.intercalate_cons_of_ne_nil hcuts.ne_nil]
      simp only [List.append_assoc]
    have htext : substitute ++ (piece ++ search ++ rest) =
        substitute ++ piece ++ (search ++ rest) := by
      simp only [List.append_assoc]
    rw [hjoin, htext, List.take_append_of_le_length hlen, List.take_append_of_le_length hlen,
      List.drop_append_of_le_length hlen, List.drop_append_of_le_length hlen, ← List.append_assoc]
    exact ⟨rfl, hout⟩

/-- Where the pieces behind the first one are clear, all that is found is replaced. -/
lemma out_join (hcuts : Cuts search rest ps) (hclear : Clear search substitute ps.tail) :
    Out search substitute rest (substitute.intercalate ps) := by
  cases hcuts with
  | last hno =>
    rw [List.intercalate_singleton]
    exact .stop (place_eq_none_iff.mpr hno)
  | @cut piece rest ps hplace hcuts =>
    obtain ⟨htake, hout⟩ := out_of_clear hcuts hclear
    have hout := out_piece hplace hout
    rwa [htake, List.take_append_drop, ← List.append_assoc,
      ← List.intercalate_cons_of_ne_nil hcuts.ne_nil] at hout

lemma right_of_clear (hne : search ≠ []) (hcuts : Cuts search text ps)
    (hclear : Clear search substitute ps.tail) (hr : Replaces text search substitute r) :
    r = substitute.intercalate ps :=
  hr.unique ((replaces_iff_out hne).mpr (out_join hcuts hclear))

/-- If the loop ends although `search` is in what it sees of the substitute, there was nothing to
replace. -/
lemma right_of_infix (hne : search ≠ []) (hsub : search <:+: substitute.drop search.length) :
    Right text search substitute := by
  intro r ps hr hcuts
  have hno : ¬ search <:+: text := fun hin => not_out hsub hin ((replaces_iff_out hne).mp hr)
  refine right_of_clear hne hcuts ?_ hr
  cases hcuts with
  | last _ => exact trivial
  | cut _ _ => exact absurd ⟨_, _, rfl⟩ hno

/-- All pieces are clear if the end of the substitute contains no beginning of `search`. -/
lemma clear_of_cuts (hle : search.length ≤ substitute.length)
    (hsub : ¬ search <:+: substitute.drop search.length)
    (hu : ∀ u ≠ [], u <:+ substitute.drop search.length → ¬ u <+: search)
    (hcuts : Cuts search rest ps) : Clear search substitute ps := by
  induction hcuts with
  | last hno =>
    change ¬ search <:+: _
    rw [List.drop_append_of_le_length hle, ← place_eq_none_iff, place_append_left hsub hu,
      place_eq_none_iff.mpr hno, Option.map_none]
  | @cut piece rest ps hplace hcuts ih =>
    refine (clear_cons hcuts.ne_nil).mpr ⟨?_, ?_, ih⟩
    · rw [List.length_append]
      omega
    · rw [List.drop_append_of_le_length hle, List.append_assoc, place_append_left hsub hu,
        place_of_append_rest hplace, Option.map_some, List.length_append]

lemma right_of_faithful (hne : search ≠ []) (h : Faithful search substitute) :
    Right text search substitute := by
  intro r ps hr hcuts
  obtain ⟨hle, hfaithful⟩ := h
  by_cases hsub : search <:+: substitute.drop search.length
  · exact right_of_infix hne hsub r ps hr hcuts
  · have hu := hfaithful.resolve_left hsub
    have hclear := clear_of_cuts hle hsub hu hcuts
    refine right_of_clear hne hcuts ?_ hr
    cases hcuts with
    | last _ => exact trivial
    | cut _ hcuts => exact ((clear_cons hcuts.ne_nil).mp hclear).2.2

/-! ### Where something else comes out -/

/-- A turn makes the text longer by the difference. -/
lemma length_le (hle : search.length ≤ substitute.length) (h : Out search substitute rest r) :
    rest.length ≤ r.length := by
  induction h with
  | stop _ => exact Nat.le_refl _
  | @turn rest i r hplace _ ih =>
    have hi := (place_spec hplace).2
    simp only [List.length_append, List.length_take, List.length_drop] at ih ⊢
    omega

lemma length_lt (hlt : search.length < substitute.length) (hin : search <:+: rest)
    (h : Out search substitute rest r) : rest.length < r.length := by
  cases h with
  | stop hno => exact absurd hin (place_eq_none_iff.mp hno)
  | @turn _ i r hplace hout =>
    have hi := (place_spec hplace).2
    have hle := length_le (Nat.le_of_lt hlt) hout
    simp only [List.length_append, List.length_take, List.length_drop] at hle ⊢
    omega

/-- With a shorter substitute the loop misses the second one of two occurrences. -/
lemma not_right_of_shorter (hne : search ≠ []) (hlt : substitute.length < search.length) :
    ¬ Right (search ++ search) search substitute := by
  intro hright
  have hpos := List.length_pos_iff.mpr hne
  have hshort : ¬ search <:+: (substitute ++ search).drop search.length := by
    intro hin
    have hle := hin.length_le
    simp only [List.length_drop, List.length_append] at hle
    omega
  have hout : Out search substitute ([] ++ search ++ search) ([] ++ _) :=
    out_piece (place_append_iff.mpr nofun) (.stop (place_eq_none_iff.mpr hshort))
  rw [List.take_append_drop] at hout
  have hnil : ¬ search <:+: [] := by rwa [List.infix_nil]
  have hlast : Cuts search ([] ++ search ++ []) [[], []] :=
    .cut (place_append_iff.mpr nofun) (.last hnil)
  rw [List.nil_append, List.append_nil] at hlast
  have hcuts : Cuts search ([] ++ search ++ search) [[], [], []] :=
    .cut (place_append_iff.mpr nofun) hlast
  have hr := hright _ _ ((replaces_iff_out hne).mpr hout) hcuts
  have hlen := congrArg List.length hr
  simp [List.intercalate, List.intersperse] at hlen
  omega

/-- Where the substitute ends like `search` begins, the rest of `search` behind it is enough. -/
lemma not_right_of_overlap (hne : search ≠ []) (hle : search.length ≤ substitute.length)
    (hsub : ¬ search <:+: substitute.drop search.length) {u v : List α} (hu : u ≠ [])
    (hsuf : u <:+ substitute.drop search.length) (huv : search = u ++ v) :
    ¬ Right (search ++ v) search substitute := by
  intro hright
  have hupos := List.length_pos_iff.mpr hu
  have hulen := hsuf.length_le
  rw [List.length_drop] at hulen
  have hin : search <:+: (substitute ++ v).drop search.length := by
    obtain ⟨w, hw⟩ := hsuf
    rw [List.drop_append_of_le_length hle, ← hw, List.append_assoc, ← huv]
    exact (List.suffix_append w search).isInfix
  obtain ⟨o, ho⟩ := exists_out_turn hsub v
  have hout : Out search substitute ([] ++ search ++ v) ([] ++ _) :=
    out_piece (place_append_iff.mpr nofun) ho
  have hlast : ¬ search <:+: v := by
    intro hin
    have hlen := hin.length_le
    rw [huv, List.length_append] at hlen
    omega
  have hcuts : Cuts search ([] ++ search ++ v) [[], v] :=
    .cut (place_append_iff.mpr nofun) (.last hlast)
  have hr := hright _ _ ((replaces_iff_out hne).mpr hout) hcuts
  -- what comes out is longer by the second replacement
  have hlonger := length_lt (by omega) hin ho
  have hlen := congrArg List.length hr
  simp [List.intercalate, List.intersperse] at hlen hlonger
  omega

lemma exists_not_right (hne : search ≠ []) (h : ¬ Faithful search substitute) :
    ∃ text, ¬ Right text search substitute := by
  rcases Nat.lt_or_ge substitute.length search.length with hlt | hle
  · exact ⟨_, not_right_of_shorter hne hlt⟩
  · rw [Faithful, not_and_or, not_or] at h
    obtain ⟨hsub, hu⟩ := h.resolve_left (not_not.mpr hle)
    push Not at hu
    obtain ⟨u, hu, hsuf, v, huv⟩ := hu
    exact ⟨_, not_right_of_overlap hne hle hsub hu hsuf huv.symm⟩

/-- `Right` is about the pieces that `split` returns. -/
lemma right_iff_split (hfits : Fits text) (hne : search ≠ []) : Right text search substitute ↔
    ∀ r ps, Replaces text search substitute r → split text search = some ps →
      r = substitute.intercalate ps := by
  simp only [split_eq_some_iff hfits hne]
  rfl

/-- **What `replace` returns.** For a search string and a substitute it is right on all texts
exactly if the substitute is faithful. On a text it is right if the pieces behind the first one are
clear. -/
theorem replace_iff (hne : search ≠ []) (substitute : List α) :
    ((∀ text, Right text search substitute) ↔ Faithful search substitute) ∧
      ∀ text, Fits text →
        (Right text search substitute ↔ ∀ r ps, Replaces text search substitute r →
          split text search = some ps → r = substitute.intercalate ps) ∧
        ∀ ps, split text search = some ps →
          search <:+: substitute.drop search.length ∨ Clear search substitute ps.tail →
            Right text search substitute := by
  refine ⟨⟨fun hright => ?_, fun h _ => right_of_faithful hne h⟩, fun text hfits =>
    ⟨right_iff_split hfits hne, fun ps hps hcond => ?_⟩⟩
  · by_contra h
    obtain ⟨text, htext⟩ := exists_not_right hne h
    exact htext (hright text)
  · have hcuts := (split_eq_some_iff hfits hne).mp hps
    rcases hcond with hsub | hclear
    · exact right_of_infix hne hsub
    · intro r qs hr hqs
      obtain rfl := hcuts.unique hqs
      exact right_of_clear hne hcuts hclear hr

/-- A comma with a blank begins with none of the separators. -/
theorem replace_iff_comma :
    ((∀ text, Right text "::".toList ", ".toList) ↔ Faithful "::".toList ", ".toList) ∧
      ∀ text, Fits text →
        (Right text "::".toList ", ".toList ↔ ∀ r ps, Replaces text "::".toList ", ".toList r →
          split text "::".toList = some ps → r = ", ".toList.intercalate ps) ∧
        ∀ ps, split text "::".toList = some ps →
          "::".toList <:+: ", ".toList.drop "::".toList.length ∨
              Clear "::".toList ", ".toList ps.tail →
            Right text "::".toList ", ".toList :=
  replace_iff (List.cons_ne_nil _ _) _

/-- The second one of two separators stays, and what begins in a substitute is replaced. -/
theorem replaces_wrong :
    (Replaces "::::".toList "::".toList " ".toList " ::".toList ∧
      split "::::".toList "::".toList = some [[], [], []] ∧
      " ::".toList ≠ " ".toList.intercalate [[], [], []]) ∧
    Replaces "abb".toList "ab".toList "xya".toList "xyxya".toList ∧
      split "abb".toList "ab".toList = some [[], "b".toList] ∧
      "xyxya".toList ≠ "xya".toList.intercalate [[], "b".toList] :=
  ⟨⟨⟨2, by decide⟩, by decide, by decide⟩, ⟨3, by decide⟩, by decide, by decide⟩

end Hbm.Replace
