import Mathlib.Data.List.Induction

/-!
Runs of a machine whose step is a partial function of a state and a label.

What the environment decides is in the label, so a run is a list of labels, and `none` says
that a label was not possible where it came.
-/

namespace Hbm.Run

variable {S L : Type*}

/-- The state after a list of labels. -/
def run (step : S → L → Option S) (s : S) (ls : List L) : Option S := ls.foldlM step s

variable {step : S → L → Option S}

@[simp] lemma run_nil (s : S) : run step s [] = some s := rfl

@[simp] lemma run_cons (s : S) (l : L) (ls : List L) :
    run step s (l :: ls) = (step s l).bind fun t => run step t ls := rfl

lemma run_append (s : S) (ls ms : List L) :
    run step s (ls ++ ms) = (run step s ls).bind fun t => run step t ms := by
  simp [run, List.foldlM_append]

lemma run_cons_some {s t : S} {l : L} {ls : List L} :
    run step s (l :: ls) = some t ↔ ∃ u, step s l = some u ∧ run step u ls = some t := by
  simp [Option.bind_eq_some_iff]

lemma run_snoc_some {s t : S} {l : L} {ls : List L} :
    run step s (ls ++ [l]) = some t ↔ ∃ u, run step s ls = some u ∧ step u l = some t := by
  simp [run_append, Option.bind_eq_some_iff]

/-- Some labels lead from one state to another. -/
def Reaches (step : S → L → Option S) (s t : S) : Prop := ∃ ls, run step s ls = some t

lemma Reaches.refl (s : S) : Reaches step s s := ⟨[], rfl⟩

lemma Reaches.of_step {s t : S} {l : L} (h : step s l = some t) : Reaches step s t :=
  ⟨[l], by simp [h]⟩

lemma Reaches.trans {s t u : S} (h : Reaches step s t) (h' : Reaches step t u) :
    Reaches step s u := by
  obtain ⟨ls, hls⟩ := h
  obtain ⟨ms, hms⟩ := h'
  exact ⟨ls ++ ms, by rw [run_append, hls]; exact hms⟩

/-- Every step of the run is taken in a state and with a label that meet `ok`. -/
def Meets (step : S → L → Option S) (ok : S → L → Prop) : S → List L → Prop
  | _, [] => True
  | s, l :: ls => ok s l ∧ ∀ t, step s l = some t → Meets step ok t ls

variable {ok ok' : S → L → Prop} {I : S → Prop}

@[simp] lemma meets_nil (s : S) : Meets step ok s [] := trivial

@[simp] lemma meets_cons (s : S) (l : L) (ls : List L) :
    Meets step ok s (l :: ls) ↔ ok s l ∧ ∀ t, step s l = some t → Meets step ok t ls := Iff.rfl

/-- A condition that can be tested can be tested along a run. -/
instance decidableMeets [∀ s l, Decidable (ok s l)] : ∀ s ls, Decidable (Meets step ok s ls)
  | _, [] => isTrue trivial
  | s, l :: ls =>
    match h : step s l with
    | none => decidable_of_iff (ok s l) ⟨fun ho => ⟨ho, by simp [h]⟩, And.left⟩
    | some t =>
      have := decidableMeets t ls
      decidable_of_iff (ok s l ∧ Meets step ok t ls)
        ⟨fun ho => ⟨ho.1, by simpa [h] using ho.2⟩, fun ho => ⟨ho.1, ho.2 t h⟩⟩

lemma meets_step {s t : S} {l : L} {ls : List L} (hok : ok s l) (h : step s l = some t)
    (ht : Meets step ok t ls) : Meets step ok s (l :: ls) := by
  refine ⟨hok, fun u hu => ?_⟩
  rw [h] at hu
  cases hu
  exact ht

lemma meets_of_forall {ls : List L} (h : ∀ l ∈ ls, ∀ s, ok s l) (s : S) : Meets step ok s ls := by
  induction ls generalizing s with
  | nil => trivial
  | cons l ls ih =>
    exact ⟨h l (by simp) s, fun t _ => ih (fun m hm => h m (by simp [hm])) t⟩

lemma Meets.and {s : S} {ls : List L} (h : Meets step ok s ls) (h' : Meets step ok' s ls) :
    Meets step (fun s l => ok s l ∧ ok' s l) s ls := by
  induction ls generalizing s with
  | nil => trivial
  | cons l ls ih => exact ⟨⟨h.1, h'.1⟩, fun t ht => ih (h.2 t ht) (h'.2 t ht)⟩

/-- Along a run that keeps the invariant one condition gives another. -/
lemma Meets.imp (hinv : ∀ s l t, I s → ok s l → step s l = some t → I t)
    (himp : ∀ s l, I s → ok s l → ok' s l) {s : S} {ls : List L} (hs : I s)
    (h : Meets step ok s ls) : Meets step ok' s ls := by
  induction ls generalizing s with
  | nil => trivial
  | cons l ls ih =>
    exact ⟨himp s l hs h.1, fun t ht => ih (hinv s l t hs h.1 ht) (h.2 t ht)⟩

/-- **The invariant rule.** What every allowed step keeps, every run of allowed steps keeps. -/
theorem run_inv_of_meets (hstep : ∀ s l t, I s → ok s l → step s l = some t → I t)
    {s t : S} {ls : List L} (hs : I s) (hok : Meets step ok s ls) (h : run step s ls = some t) :
    I t := by
  induction ls generalizing s with
  | nil =>
    obtain rfl : s = t := by simpa using h
    exact hs
  | cons l ls ih =>
    obtain ⟨u, hu, hrest⟩ := run_cons_some.mp h
    exact ih (hstep s l u hs hok.1 hu) (hok.2 u hu) hrest

lemma meets_snoc {s : S} {ls : List L} {l : L} :
    Meets step ok s (ls ++ [l]) ↔
      Meets step ok s ls ∧ ∀ t, run step s ls = some t → ok t l := by
  induction ls generalizing s with
  | nil => simp
  | cons m ls ih =>
    simp only [List.cons_append, meets_cons, ih]
    constructor
    · rintro ⟨hm, h⟩
      refine ⟨⟨hm, fun t ht => (h t ht).1⟩, fun t ht => ?_⟩
      obtain ⟨u, hu, hrest⟩ := run_cons_some.mp ht
      exact (h u hu).2 t hrest
    · rintro ⟨⟨hm, h⟩, hl⟩
      exact ⟨hm, fun t ht => ⟨h t ht, fun u hu => hl u (run_cons_some.mpr ⟨t, ht, hu⟩)⟩⟩

/-- The invariant rule for runs whose labels are all of a kind. -/
theorem run_inv_of_labels {P : L → Prop} (hstep : ∀ s l t, I s → P l → step s l = some t → I t)
    {s t : S} {ls : List L} (hs : I s) (hP : ∀ l ∈ ls, P l) (h : run step s ls = some t) : I t :=
  have hok : Meets step (fun _ l => P l) s ls := meets_of_forall (fun l hl _ => hP l hl) s
  run_inv_of_meets hstep hs hok h

/-- The invariant rule when every step is allowed. -/
theorem run_inv (hstep : ∀ s l t, I s → step s l = some t → I t)
    {s t : S} {ls : List L} (hs : I s) (h : run step s ls = some t) : I t :=
  run_inv_of_labels (P := fun _ => True) (fun s l t hs _ => hstep s l t hs) hs
    (fun _ _ => trivial) h

/-- **The exact rule.** If a step leads to a state of `Q` exactly when it is allowed and comes
from one, then a run ends in `Q` exactly when all its steps are allowed. -/
theorem run_iff_meets {P : L → Prop} {Q : S → Prop}
    (hinv : ∀ s l t, I s → P l → step s l = some t → I t)
    (hstep : ∀ s l t, I s → P l → step s l = some t → (Q t ↔ Q s ∧ ok s l))
    {s t : S} {ls : List L} (hI : I s) (hQ : Q s) (hP : ∀ l ∈ ls, P l)
    (h : run step s ls = some t) : Q t ↔ Meets step ok s ls := by
  induction ls using List.reverseRecOn generalizing t with
  | nil =>
    obtain rfl : s = t := by simpa using h
    simp [hQ]
  | append_singleton ls l ih =>
    obtain ⟨u, hu, hl⟩ := run_snoc_some.mp h
    have hP' : ∀ m ∈ ls, P m := fun m hm => hP m (by simp [hm])
    rw [hstep u l t (run_inv_of_labels hinv hI hP' hu) (hP l (by simp)) hl, ih hP' hu, meets_snoc]
    simp [hu]

/-- If two conditions agree wherever the invariant holds, and steps that meet the first one keep
the invariant, a run meets the one exactly when it meets the other. -/
lemma meets_iff_meets (hinv : ∀ s l t, I s → ok s l → step s l = some t → I t)
    (hiff : ∀ s l t, I s → step s l = some t → (ok s l ↔ ok' s l))
    {s t : S} {ls : List L} (hs : I s) (h : run step s ls = some t) :
    Meets step ok s ls ↔ Meets step ok' s ls := by
  induction ls generalizing s with
  | nil => exact Iff.rfl
  | cons l ls ih =>
    obtain ⟨u, hu, hrest⟩ := run_cons_some.mp h
    have hl := hiff s l u hs hu
    constructor
    · rintro ⟨hok, hmeets⟩
      have hI := hinv s l u hs hok hu
      exact meets_step (hl.mp hok) hu ((ih hI hrest).mp (hmeets u hu))
    · rintro ⟨hok, hmeets⟩
      have hI := hinv s l u hs (hl.mpr hok) hu
      exact meets_step (hl.mpr hok) hu ((ih hI hrest).mpr (hmeets u hu))

/-- **The simulation rule.** If every allowed step is matched by one of another machine, every
run of allowed steps is. -/
theorem run_sim {S' L' : Type*} {step' : S' → L' → Option S'} {R : S → S' → Prop} {f : L → L'}
    (hstep : ∀ s s' l t, R s s' → ok s l → step s l = some t →
      ∃ t', step' s' (f l) = some t' ∧ R t t')
    {s t : S} {s' : S'} {ls : List L} (hR : R s s') (hok : Meets step ok s ls)
    (h : run step s ls = some t) : ∃ t', run step' s' (ls.map f) = some t' ∧ R t t' := by
  induction ls generalizing s s' with
  | nil =>
    obtain rfl : s = t := by simpa using h
    exact ⟨s', rfl, hR⟩
  | cons l ls ih =>
    obtain ⟨u, hu, hrest⟩ := run_cons_some.mp h
    obtain ⟨u', hu', hRu⟩ := hstep s s' l u hR hok.1 hu
    obtain ⟨t', ht', hRt⟩ := ih hRu (hok.2 u hu) hrest
    exact ⟨t', run_cons_some.mpr ⟨u', hu', ht'⟩, hRt⟩

/-- `P` holds in every state that the run goes through. -/
def Always (step : S → L → Option S) (P : S → Prop) (s : S) (ls : List L) : Prop :=
  ∀ ks t, ks <+: ls → run step s ks = some t → P t

lemma Meets.of_append {s : S} {ls ms : List L} (h : Meets step ok s (ls ++ ms)) :
    Meets step ok s ls := by
  induction ls generalizing s with
  | nil => trivial
  | cons l ls ih => exact ⟨h.1, fun t ht => ih (h.2 t ht)⟩

/-- Two runs one after the other. -/
lemma Meets.append {s t : S} {ls ms : List L} (h : Meets step ok s ls) (ht : run step s ls = some t)
    (h' : Meets step ok t ms) : Meets step ok s (ls ++ ms) := by
  induction ls generalizing s with
  | nil =>
    obtain rfl : s = t := by simpa using ht
    exact h'
  | cons l ls ih =>
    obtain ⟨u, hu, hrest⟩ := run_cons_some.mp ht
    exact meets_step h.1 hu (ih (h.2 u hu) hrest)

/-- **The exact rule for safety.** If allowed steps keep the invariant, the invariant gives `P`,
and only allowed steps lead from it to `P`, then `P` always holds exactly when all the steps are
allowed. -/
theorem always_iff_meets {P : S → Prop}
    (hinv : ∀ s l t, I s → ok s l → step s l = some t → I t) (hP : ∀ s, I s → P s)
    (honly : ∀ s l t, I s → step s l = some t → P t → ok s l)
    {s t : S} {ls : List L} (hs : I s) (h : run step s ls = some t) :
    Always step P s ls ↔ Meets step ok s ls := by
  constructor
  · intro halways
    induction ls using List.reverseRecOn generalizing t with
    | nil => trivial
    | append_singleton ls l ih =>
      obtain ⟨u, hu, hl⟩ := run_snoc_some.mp h
      have hls : Meets step ok s ls :=
        ih hu fun ks v hk => halways ks v (hk.trans (List.prefix_append ls [l]))
      refine meets_snoc.mpr ⟨hls, fun v hv => ?_⟩
      obtain rfl := Option.some.inj (hu.symm.trans hv)
      exact honly u l t (run_inv_of_meets hinv hs hls hu) hl (halways _ t List.prefix_rfl h)
  · rintro hok ks u ⟨ms, rfl⟩ hu
    exact hP u (run_inv_of_meets hinv hs hok.of_append hu)

/-- What every step takes over from its label is taken over from the labels of the run in turn. -/
lemma foldl_of_run {A : Type*} {f : A → L → A} {g : S → A}
    (hstep : ∀ s l t, step s l = some t → g t = f (g s) l) {s t : S} {ls : List L}
    (h : run step s ls = some t) : g t = ls.foldl f (g s) := by
  induction ls generalizing s with
  | nil =>
    obtain rfl : s = t := by simpa using h
    rfl
  | cons l ls ih =>
    obtain ⟨u, hu, hrest⟩ := run_cons_some.mp h
    rw [List.foldl_cons, ih hrest, hstep s l u hu]

/-- A flag that every step raises for its label says whether a label of the run raises it. -/
lemma any_of_run {f : L → Bool} {g : S → Bool}
    (hstep : ∀ s l t, step s l = some t → g t = (g s || f l)) {s t : S} {ls : List L}
    (h : run step s ls = some t) : g t = (g s || ls.any f) := by
  induction ls generalizing s with
  | nil =>
    obtain rfl : s = t := by simpa using h
    simp
  | cons l ls ih =>
    obtain ⟨u, hu, hrest⟩ := run_cons_some.mp h
    rw [ih hrest, hstep s l u hu, List.any_cons, Bool.or_assoc]

end Hbm.Run
