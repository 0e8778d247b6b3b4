import Mathlib.Data.Nat.Notation
import Mathlib.Tactic.Lemma

/-!
Where a list occurs in another one.

The leftmost occurrence is found from the left, one element after the other. A text is cut at the
leftmost occurrence of a separator, and so is what comes after it. This determines the pieces.
-/

namespace Hbm.Substring

variable {α : Type*} [DecidableEq α]

/-- The place of the leftmost occurrence of `p`. -/
def place (p : List α) : List α → Option ℕ
  | [] => if p = [] then some 0 else none
  | c :: text => if p <+: c :: text then some 0 else (place p text).map (· + 1)

/-- The pieces between the occurrences that do not overlap, from the left. -/
inductive Cuts (p : List α) : List α → List (List α) → Prop
  | last {text} : ¬ p <:+: text → Cuts p text [text]
  | cut {piece rest ps} : place p (piece ++ p ++ rest) = some piece.length → Cuts p rest ps →
      Cuts p (piece ++ p ++ rest) (piece :: ps)

variable {p q text : List α} {i j : ℕ}

/-! ### The leftmost occurrence -/

lemma place_eq_some_iff : place p text = some i ↔
    i ≤ text.length ∧ p <+: text.drop i ∧ ∀ j < i, ¬ p <+: text.drop j := by
  induction text generalizing i with
  | nil =>
    by_cases hp : p = []
    · subst hp
      cases i <;> simp [place]
    · cases i <;> simp [place, hp]
  | cons c text ih =>
    by_cases hp : p <+: c :: text
    · cases i with
      | zero => simp [place, hp]
      | succ i =>
        refine iff_of_false (by simp [place, hp]) fun h => ?_
        exact h.2.2 0 (Nat.succ_pos i) hp
    · cases i with
      | zero => simp [place, hp]
      | succ i =>
        have hplace : place p (c :: text) = some (i + 1) ↔ place p text = some i := by
          simp [place, hp]
        rw [hplace, ih, List.length_cons, List.drop_succ_cons, Nat.add_le_add_iff_right]
        refine and_congr_right fun _ => and_congr_right fun _ =>
          ⟨fun h j hj => ?_, fun h j hj => ?_⟩
        · cases j with
          | zero => exact hp
          | succ j => exact h j (by omega)
        · exact h (j + 1) (by omega)

omit [DecidableEq α] in
lemma infix_iff_drop : p <:+: text ↔ ∃ i, p <+: text.drop i := by
  constructor
  · rintro ⟨s, t, rfl⟩
    refine ⟨s.length, ?_⟩
    rw [List.append_assoc, List.drop_left]
    exact List.prefix_append p t
  · rintro ⟨i, h⟩
    exact h.isInfix.trans (List.drop_suffix i text).isInfix

lemma place_eq_none_iff : place p text = none ↔ ¬ p <:+: text := by
  induction text with
  | nil =>
    by_cases hp : p = [] <;> simp [place, hp]
  | cons c text ih =>
    rw [List.infix_cons_iff, not_or, ← ih, place]
    by_cases hp : p <+: c :: text <;> simp [hp]

/-- What is found is there. -/
lemma place_spec (h : place p text = some i) :
    text = text.take i ++ p ++ text.drop (i + p.length) ∧ i + p.length ≤ text.length := by
  obtain ⟨hi, hp, -⟩ := place_eq_some_iff.mp h
  have hrest := List.prefix_iff_eq_append.mp hp
  have hlen := hp.length_le
  rw [List.length_drop] at hlen
  rw [List.drop_drop] at hrest
  refine ⟨?_, by omega⟩
  rw [List.append_assoc, hrest, List.take_append_drop]

/-- A text with `p` at a place, and nowhere before it. -/
lemma place_append_iff {piece rest : List α} : place p (piece ++ p ++ rest) = some piece.length ↔
    ∀ j < piece.length, ¬ p <+: (piece ++ p ++ rest).drop j := by
  rw [place_eq_some_iff]
  refine ⟨fun h => h.2.2, fun h => ⟨by simp, ?_, h⟩⟩
  rw [List.append_assoc, List.drop_left]
  exact List.prefix_append p rest

lemma place_of_append_rest {piece rest : List α}
    (h : place p (piece ++ p ++ rest) = some piece.length) :
    place p (piece ++ p) = some piece.length := by
  rw [place_append_iff] at h
  rw [← List.append_nil (piece ++ p), place_append_iff]
  intro j hj hpre
  refine h j hj (hpre.trans ?_)
  have hle : j ≤ (piece ++ p).length := by
    rw [List.length_append]
    omega
  rw [List.append_nil, List.drop_append_of_le_length hle]
  exact List.prefix_append _ _

/-- What comes after the leftmost occurrence does not matter. -/
lemma place_append {rest : List α} (h : place p text = some i) :
    place p (text ++ rest) = some i := by
  have hlen := (place_spec h).2
  obtain ⟨hi, hp, hfirst⟩ := place_eq_some_iff.mp h
  refine place_eq_some_iff.mpr ⟨?_, ?_, fun j hj hpre => hfirst j hj ?_⟩
  · rw [List.length_append]
    omega
  · rw [List.drop_append_of_le_length hi]
    exact hp.trans (List.prefix_append _ _)
  · rw [List.drop_append_of_le_length (by omega)] at hpre
    refine List.prefix_of_prefix_length_le hpre (List.prefix_append _ _) ?_
    rw [List.length_drop]
    omega

omit [DecidableEq α] in
/-- An occurrence that begins in the first part ends there, or goes on in the second one. -/
lemma prefix_drop_append {s : List α} (hi : i < s.length) (h : p <+: (s ++ text).drop i) :
    p <:+: s ∨ ∃ u ≠ [], u <:+ s ∧ u <+: p := by
  rw [List.drop_append_of_le_length (by omega)] at h
  rcases Nat.le_total p.length (s.drop i).length with hle | hle
  · left
    have hpre := List.prefix_of_prefix_length_le h (List.prefix_append _ _) hle
    exact infix_iff_drop.mpr ⟨i, hpre⟩
  · right
    refine ⟨s.drop i, ?_, List.drop_suffix i s, ?_⟩
    · intro hnil
      rw [List.drop_eq_nil_iff] at hnil
      omega
    · exact List.prefix_of_prefix_length_le (List.prefix_append _ _) h hle

/-- Nothing is found in the first part, and across its end. -/
lemma place_append_left {s : List α} (hs : ¬ p <:+: s)
    (hu : ∀ u ≠ [], u <:+ s → ¬ u <+: p) :
    place p (s ++ text) = (place p text).map (s.length + ·) := by
  have hno : ∀ j < s.length, ¬ p <+: (s ++ text).drop j := by
    intro j hj h
    rcases prefix_drop_append hj h with hin | ⟨u, hne, hsuf, hpre⟩
    · exact hs hin
    · exact hu u hne hsuf hpre
  cases h : place p text with
  | none =>
    refine place_eq_none_iff.mpr fun hin => place_eq_none_iff.mp h ?_
    obtain ⟨j, hj⟩ := infix_iff_drop.mp hin
    have hle : s.length ≤ j := Nat.not_lt.mp fun hlt => hno j hlt hj
    rw [List.drop_append, List.drop_of_length_le hle, List.nil_append] at hj
    exact infix_iff_drop.mpr ⟨_, hj⟩
  | some i =>
    obtain ⟨hi, hp, hfirst⟩ := place_eq_some_iff.mp h
    change place p (s ++ text) = some (s.length + i)
    refine place_eq_some_iff.mpr ⟨?_, ?_, fun j hj hpre => ?_⟩
    · rw [List.length_append]
      omega
    · rwa [List.drop_length_add_append]
    · rcases Nat.lt_or_ge j s.length with hlt | hge
      · exact hno j hlt hpre
      · rw [List.drop_append, List.drop_of_length_le hge, List.nil_append] at hpre
        exact hfirst (j - s.length) (by omega) hpre

/-! ### The pieces -/

/-- A text with an occurrence is cut at the leftmost one. -/
lemma cuts_of_place {ps : List (List α)} (h : place p text = some i)
    (hps : Cuts p (text.drop (i + p.length)) ps) : Cuts p text (text.take i :: ps) := by
  obtain ⟨htext, hlen⟩ := place_spec h
  have hi : (text.take i).length = i := by
    rw [List.length_take]
    omega
  have hcut : place p (text.take i ++ p ++ text.drop (i + p.length)) =
      some (text.take i).length := by
    rw [← htext, h, hi]
  have hcuts := Cuts.cut hcut hps
  rwa [← htext] at hcuts

/-- The pieces are determined by the text. -/
theorem Cuts.unique {ps qs : List (List α)} (h : Cuts p text ps) (h' : Cuts p text qs) :
    ps = qs := by
  induction h generalizing qs with
  | last hno =>
    cases h' with
    | last _ => rfl
    | cut hcut _ =>
      exact absurd ⟨_, _, rfl⟩ hno
  | @cut piece rest ps hcut hps ih =>
    generalize ht : piece ++ p ++ rest = text at h'
    cases h' with
    | last hno => exact absurd ⟨piece, rest, ht⟩ hno
    | @cut piece' rest' qs hcut' hqs =>
      rw [ht, hcut'] at hcut
      have hlen : piece.length = piece'.length := (Option.some.inj hcut).symm
      rw [List.append_assoc, List.append_assoc] at ht
      obtain ⟨rfl, htail⟩ := List.append_inj ht hlen
      obtain rfl : rest = rest' := List.append_cancel_left htail
      rw [ih hqs]

lemma Cuts.ne_nil {ps : List (List α)} (h : Cuts p text ps) : ps ≠ [] := by
  cases h <;> exact List.cons_ne_nil _ _

/-- The pieces joined give the text. -/
theorem Cuts.join {ps : List (List α)} (h : Cuts p text ps) : p.intercalate ps = text := by
  induction h with
  | last _ => exact List.intercalate_singleton
  | cut _ hps ih => rw [List.intercalate_cons_of_ne_nil hps.ne_nil, ih]

/-- No piece contains the separator. -/
theorem Cuts.not_infix {ps : List (List α)} (hp : p ≠ []) (h : Cuts p text ps) :
    ∀ piece ∈ ps, ¬ p <:+: piece := by
  induction h with
  | last hno => exact List.forall_mem_singleton.mpr hno
  | @cut piece rest ps hcut _ ih =>
    refine List.forall_mem_cons.mpr ⟨fun hin => ?_, ih⟩
    -- an occurrence in the piece would be further to the left
    obtain ⟨s, t, rfl⟩ := hin
    have hlt : s.length < (s ++ p ++ t).length := by
      have hpos := List.length_pos_iff.mpr hp
      simp only [List.length_append]
      omega
    refine place_append_iff.mp hcut s.length hlt ?_
    simp only [List.append_assoc, List.drop_left]
    exact List.prefix_append p _

/-- No piece contains a separator that is one element. -/
lemma Cuts.not_mem {c : α} {ps : List (List α)} (h : Cuts [c] text ps) :
    ∀ piece ∈ ps, c ∉ piece := by
  intro piece hpiece hc
  obtain ⟨s, t, rfl⟩ := List.append_of_mem hc
  refine h.not_infix (List.cons_ne_nil c []) _ hpiece ⟨s, t, ?_⟩
  rw [List.append_assoc, List.singleton_append]

/-- Every cut is at the leftmost place. -/
theorem Cuts.leftmost {before after : List (List α)} {piece next : List α}
    (h : Cuts p text (before ++ piece :: next :: after)) :
    place p (piece ++ p ++ p.intercalate (next :: after)) = some piece.length := by
  induction before generalizing text with
  | nil =>
    cases h with
    | cut hcut hps => rwa [hps.join]
  | cons b before ih =>
    generalize hps : before ++ piece :: next :: after = ps at h
    rw [List.cons_append, hps] at h
    cases h with
    | last _ => simp at hps
    | cut _ h => exact ih (hps ▸ h)

end Hbm.Substring
