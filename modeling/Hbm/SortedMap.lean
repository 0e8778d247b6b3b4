import Mathlib.Order.Lattice
import Mathlib.Data.List.Induction

/-!
A map whose entries stand in the order of their keys.

`alter` is the access that makes an entry where there is none, together with what is done to the
value. When a list is worked off this way, the entry of a key comes from the items with that key
only, in their order.
-/

namespace Hbm

/-- The keys grow strictly. -/
@[ext] structure SortedMap (κ β : Type*) [LT κ] where
  entries : List (κ × β)
  sorted : entries.Pairwise fun x y => x.1 < y.1

namespace SortedMap

variable {κ β α : Type*} [LinearOrder κ]

def empty : SortedMap κ β := ⟨[], .nil⟩

def findList (k : κ) : List (κ × β) → Option β
  | [] => none
  | (l, v) :: rest => if l = k then some v else findList k rest

def find (m : SortedMap κ β) (k : κ) : Option β := findList k m.entries

/-- The value at a key is replaced; a new entry is put in its place in the order. -/
def alterList (k : κ) (f : Option β → β) : List (κ × β) → List (κ × β)
  | [] => [(k, f none)]
  | (l, v) :: rest =>
    if k < l then (k, f none) :: (l, v) :: rest
    else if l = k then (l, f (some v)) :: rest
    else (l, v) :: alterList k f rest

variable {k l : κ} {f : Option β → β} {es : List (κ × β)} {v : β}

lemma key_of_mem_alterList {e : κ × β} (h : e ∈ alterList k f es) :
    e.1 = k ∨ ∃ e' ∈ es, e'.1 = e.1 := by
  induction es with
  | nil =>
    rw [alterList, List.mem_singleton] at h
    exact .inl (congrArg Prod.fst h)
  | cons e' es ih =>
    obtain ⟨l, v⟩ := e'
    unfold alterList at h
    split_ifs at h with hlt heq
    · rcases List.mem_cons.mp h with rfl | h
      · exact .inl rfl
      · exact .inr ⟨e, h, rfl⟩
    · rcases List.mem_cons.mp h with rfl | h
      · exact .inl heq
      · exact .inr ⟨e, List.mem_cons_of_mem _ h, rfl⟩
    · rcases List.mem_cons.mp h with rfl | h
      · exact .inr ⟨_, List.mem_cons_self, rfl⟩
      · exact (ih h).imp_right fun ⟨e', he', heq⟩ => ⟨e', List.mem_cons_of_mem _ he', heq⟩

lemma sorted_alterList (h : es.Pairwise fun x y => x.1 < y.1) :
    (alterList k f es).Pairwise fun x y => x.1 < y.1 := by
  induction es with
  | nil => exact List.pairwise_singleton _ _
  | cons e es ih =>
    obtain ⟨l, v⟩ := e
    obtain ⟨hfirst, hrest⟩ := List.pairwise_cons.mp h
    unfold alterList
    split_ifs with hlt heq
    · refine List.pairwise_cons.mpr ⟨fun e he => ?_, h⟩
      rcases List.mem_cons.mp he with rfl | he
      · exact hlt
      · exact lt_trans hlt (hfirst e he)
    · exact List.pairwise_cons.mpr ⟨hfirst, hrest⟩
    · refine List.pairwise_cons.mpr ⟨fun e he => ?_, ih hrest⟩
      rcases key_of_mem_alterList he with hk | ⟨e', he', hk⟩
      · rw [hk]
        exact lt_of_le_of_ne (not_lt.mp hlt) heq
      · rw [← hk]
        exact hfirst e' he'

def alter (m : SortedMap κ β) (k : κ) (f : Option β → β) : SortedMap κ β :=
  ⟨alterList k f m.entries, sorted_alterList m.sorted⟩

lemma findList_of_lt (h : ∀ e ∈ es, k < e.1) : findList k es = none := by
  induction es with
  | nil => rfl
  | cons e es ih =>
    obtain ⟨hfirst, hrest⟩ := List.forall_mem_cons.mp h
    rw [findList, if_neg (ne_of_gt hfirst), ih hrest]

lemma mem_entries_iff {m : SortedMap κ β} : (k, v) ∈ m.entries ↔ m.find k = some v := by
  obtain ⟨es, h⟩ := m
  change (k, v) ∈ es ↔ findList k es = some v
  induction es with
  | nil => simp [findList]
  | cons e es ih =>
    obtain ⟨l, w⟩ := e
    obtain ⟨hfirst, hrest⟩ := List.pairwise_cons.mp h
    rw [List.mem_cons, findList]
    split_ifs with heq
    · subst heq
      have hnot : (l, v) ∉ es := fun hmem => lt_irrefl l (hfirst (l, v) hmem)
      simp [hnot, eq_comm]
    · simp [Ne.symm heq, ih hrest]

lemma findList_alterList (h : es.Pairwise fun x y => x.1 < y.1) :
    findList l (alterList k f es) = if l = k then some (f (findList k es)) else findList l es := by
  induction es with
  | nil => simp [alterList, findList, eq_comm]
  | cons e es ih =>
    obtain ⟨j, v⟩ := e
    obtain ⟨hfirst, hrest⟩ := List.pairwise_cons.mp h
    rw [alterList]
    by_cases hlt : k < j
    · have hnone : findList k ((j, v) :: es) = none := by
        refine findList_of_lt (List.forall_mem_cons.mpr ⟨hlt, fun e he => ?_⟩)
        exact lt_trans hlt (hfirst e he)
      rw [if_pos hlt, hnone, findList]
      simp only [eq_comm]
    · rw [if_neg hlt]
      by_cases heq : j = k
      · subst heq
        rw [if_pos rfl, findList, findList, findList, if_pos rfl]
        by_cases hl : l = j
        · rw [if_pos hl, if_pos hl.symm]
        · rw [if_neg hl, if_neg (Ne.symm hl), if_neg (Ne.symm hl)]
      · rw [if_neg heq, findList, findList, findList, if_neg heq, ih hrest]
        by_cases hl : l = k
        · rw [if_pos hl, if_pos hl, if_neg (hl ▸ heq)]
        · rw [if_neg hl, if_neg hl]

/-- Only the entry of the key changes. -/
lemma find_alter (m : SortedMap κ β) (k l : κ) (f : Option β → β) :
    (m.alter k f).find l = if l = k then some (f (m.find k)) else m.find l :=
  findList_alterList m.sorted

/-- **What becomes of a key** comes from the items with that key. -/
theorem find_foldl (key : α → κ) (f : α → Option β → β) (items : List α) (m : SortedMap κ β)
    (k : κ) : (items.foldl (fun m x => m.alter (key x) (f x)) m).find k =
      (items.filter (key · = k)).foldl (fun o x => some (f x o)) (m.find k) := by
  induction items generalizing m with
  | nil => rfl
  | cons x items ih =>
    rw [List.foldl_cons, ih, find_alter, List.filter_cons]
    by_cases hx : key x = k
    · simp [hx]
    · simp [hx, Ne.symm hx]

end SortedMap

end Hbm
