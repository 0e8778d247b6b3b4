import Mathlib.Logic.Function.Basic
import Mathlib.Tactic.Lemma

/-!
A map whose nodes live at addresses.

An entry keeps its address for as long as it is in the map, and pointers to it may be kept
elsewhere. The memory is part of the map, so that following a pointer to an erased entry shows:
there is nothing at its address, or a later entry that was given the same address.
-/

namespace Hbm

/-- Every node is in memory, and no two keys share one. -/
@[ext] structure NodeMap (κ α β : Type*) where
  node : κ → Option α
  mem : α → Option β
  mem_node : ∀ {k a}, node k = some a → (mem a).isSome
  node_inj : ∀ {k l a}, node k = some a → node l = some a → k = l

variable {κ α β : Type*}

namespace NodeMap

def empty : NodeMap κ α β where
  node := fun _ => none
  mem := fun _ => none
  mem_node := by simp
  node_inj := by simp

/-- The address and the value of the entry of a key. -/
def find (t : NodeMap κ α β) (k : κ) : Option (α × β) :=
  (t.node k).bind fun a => (t.mem a).map fun v => (a, v)

lemma find_eq_some {t : NodeMap κ α β} {k : κ} {a : α} {v : β} :
    t.find k = some (a, v) ↔ t.node k = some a ∧ t.mem a = some v := by
  simp only [find, Option.bind_eq_some_iff, Option.map_eq_some_iff, Prod.mk.injEq]
  grind

lemma find_eq_none {t : NodeMap κ α β} {k : κ} : t.find k = none ↔ t.node k = none := by
  constructor
  · intro h
    rcases hk : t.node k with _ | a
    · rfl
    · obtain ⟨v, hv⟩ := Option.isSome_iff_exists.mp (t.mem_node hk)
      rw [find_eq_some.mpr ⟨hk, hv⟩] at h
      cases h
  · intro h; simp [find, h]

/-- Two keys are not found at one address. -/
lemma find_addr_inj {t : NodeMap κ α β} {k l : κ} {a : α} {v w : β}
    (hk : t.find k = some (a, v)) (hl : t.find l = some (a, w)) : k = l :=
  t.node_inj (find_eq_some.mp hk).1 (find_eq_some.mp hl).1

variable [DecidableEq κ] [DecidableEq α]

/-- A new entry at a free address. -/
def emplace (t : NodeMap κ α β) (k : κ) (v : β) (a : α) (ha : t.mem a = none) :
    NodeMap κ α β where
  node := Function.update t.node k (some a)
  mem := Function.update t.mem a (some v)
  mem_node := by
    intro l b h
    by_cases hb : b = a
    · simp [hb]
    · have hl : l ≠ k := by rintro rfl; simp at h; exact hb h.symm
      rw [Function.update_of_ne hl] at h
      rw [Function.update_of_ne hb]
      exact t.mem_node h
  node_inj := by
    have free : ∀ l, t.node l ≠ some a := fun l h => by
      have := t.mem_node h
      simp [ha] at this
    intro l m b hl hm
    by_cases h1 : l = k <;> by_cases h2 : m = k
    · rw [h1, h2]
    · rw [h1, Function.update_self] at hl
      rw [Function.update_of_ne h2] at hm
      exact absurd (hm.trans hl.symm) (free m)
    · rw [h2, Function.update_self] at hm
      rw [Function.update_of_ne h1] at hl
      exact absurd (hl.trans hm.symm) (free l)
    · rw [Function.update_of_ne h1] at hl
      rw [Function.update_of_ne h2] at hm
      exact t.node_inj hl hm

/-- The value of an entry is replaced where it is. -/
def assign (t : NodeMap κ α β) (k : κ) (v : β) : NodeMap κ α β where
  node := t.node
  mem := fun a => if t.node k = some a then some v else t.mem a
  mem_node := by
    intro l a h
    split
    · rfl
    · exact t.mem_node h
  node_inj := t.node_inj

/-- The entry of a key is taken out and its memory given back. -/
def erase (t : NodeMap κ α β) (k : κ) : NodeMap κ α β where
  node := Function.update t.node k none
  mem := fun a => if t.node k = some a then none else t.mem a
  mem_node := by
    intro l a h
    have hl : l ≠ k := by rintro rfl; simp at h
    rw [Function.update_of_ne hl] at h
    rw [if_neg fun hk => hl (t.node_inj h hk)]
    exact t.mem_node h
  node_inj := by
    intro l m a hl hm
    have h1 : l ≠ k := by rintro rfl; simp at hl
    have h2 : m ≠ k := by rintro rfl; simp at hm
    rw [Function.update_of_ne h1] at hl
    rw [Function.update_of_ne h2] at hm
    exact t.node_inj hl hm

/-! ### What the operations find -/

variable {t : NodeMap κ α β} {k l : κ} {v : β} {a : α}

@[simp] lemma find_emplace_self (ha : t.mem a = none) :
    (t.emplace k v a ha).find k = some (a, v) := by
  simp [find_eq_some, emplace]

lemma find_emplace_of_ne (ha : t.mem a = none) (h : l ≠ k) :
    (t.emplace k v a ha).find l = t.find l := by
  rcases hl : t.node l with _ | b
  · simp [find, emplace, Function.update_of_ne h, hl]
  · have hb : b ≠ a := by
      rintro rfl
      have := t.mem_node hl
      simp [ha] at this
    simp [find, emplace, Function.update_of_ne h, Function.update_of_ne hb, hl]

omit [DecidableEq κ] in
lemma find_assign_self {w : β} (h : t.find k = some (a, w)) :
    (t.assign k v).find k = some (a, v) := by
  have := (find_eq_some.mp h).1
  simp [find_eq_some, assign, this]

omit [DecidableEq κ] in
lemma find_assign_of_ne (h : l ≠ k) : (t.assign k v).find l = t.find l := by
  rcases hl : t.node l with _ | b
  · simp [find, assign, hl]
  · have hk : t.node k ≠ some b := fun hk => h (t.node_inj hl hk)
    simp [find, assign, hl, hk]

@[simp] lemma find_erase_self : (t.erase k).find k = none := by
  simp [find_eq_none, erase]

lemma find_erase_of_ne (h : l ≠ k) : (t.erase k).find l = t.find l := by
  rcases hl : t.node l with _ | b
  · simp [find, erase, Function.update_of_ne h, hl]
  · have hk : t.node k ≠ some b := fun hk => h (t.node_inj hl hk)
    simp [find, erase, Function.update_of_ne h, hl, hk]

omit [DecidableEq κ] in
/-- Assigning what is there changes nothing, and only that. -/
lemma assign_eq_self_iff {w : β} (h : t.find k = some (a, w)) : t.assign k v = t ↔ v = w := by
  obtain ⟨hn, hm⟩ := find_eq_some.mp h
  constructor
  · intro he
    have := find_assign_self (v := v) h
    rw [he, h] at this
    simpa using this.symm
  · rintro rfl
    refine NodeMap.ext rfl (funext fun b => ?_)
    simp only [assign]
    split
    · next hb => rw [hn] at hb; cases hb; exact hm.symm
    · rfl

/-- Everything in memory is the entry of a key. -/
def Owned (t : NodeMap κ α β) : Prop := ∀ a v, t.mem a = some v → ∃ k, t.find k = some (a, v)

lemma Owned.emplace (ht : t.Owned) (ha : t.mem a = none) (hk : t.find k = none) :
    (t.emplace k v a ha).Owned := by
  intro b w hb
  by_cases hba : b = a
  · subst hba
    obtain rfl : v = w := by simpa [NodeMap.emplace] using hb
    exact ⟨k, find_emplace_self ha⟩
  · have hb' : t.mem b = some w := by simpa [NodeMap.emplace, Function.update_of_ne hba] using hb
    obtain ⟨l, hl⟩ := ht b w hb'
    have hlk : l ≠ k := by
      rintro rfl
      rw [hk] at hl
      cases hl
    exact ⟨l, (find_emplace_of_ne ha hlk).trans hl⟩

omit [DecidableEq κ] in
lemma Owned.assign (ht : t.Owned) {w : β} (hk : t.find k = some (a, w)) : (t.assign k v).Owned := by
  have hnode := (find_eq_some.mp hk).1
  intro b u hb
  by_cases hba : b = a
  · subst hba
    obtain rfl : v = u := by simpa [NodeMap.assign, hnode] using hb
    exact ⟨k, find_assign_self hk⟩
  · have hne : t.node k ≠ some b := fun h => hba (Option.some.inj (h.symm.trans hnode))
    have hb' : t.mem b = some u := by simpa [NodeMap.assign, hne] using hb
    obtain ⟨l, hl⟩ := ht b u hb'
    have hlk : l ≠ k := by
      rintro rfl
      exact hne (find_eq_some.mp hl).1
    exact ⟨l, (find_assign_of_ne hlk).trans hl⟩

lemma Owned.erase (ht : t.Owned) : (t.erase k).Owned := by
  intro b u hb
  have hne : t.node k ≠ some b := by
    intro h
    simp [NodeMap.erase, h] at hb
  have hb' : t.mem b = some u := by simpa [NodeMap.erase, hne] using hb
  obtain ⟨l, hl⟩ := ht b u hb'
  have hlk : l ≠ k := by
    rintro rfl
    exact hne (find_eq_some.mp hl).1
  exact ⟨l, (find_erase_of_ne hlk).trans hl⟩

lemma emplace_ne_self (ha : t.mem a = none) : t.emplace k v a ha ≠ t := by
  intro he
  have : (t.emplace k v a ha).mem a = some v := by simp [emplace]
  rw [he, ha] at this
  cases this

end NodeMap

end Hbm
