import Hbm.Dotted
import Hbm.Run

/-!
`PidFile` makes a file with the number of the process, and removes it with the object.

The file is named after the last component of what is given. Objects with the same last component
have the same file, whether they are of one process or of several.
-/

namespace Hbm.PidFile

open Hbm.Dotted Hbm.Run

/-! ### The name -/

/-- `basename` as in POSIX: slashes at the end do not count, and slashes alone are one. -/
def basename (path : List Char) : List Char :=
  if path = [] then ['.']
  else
    let rest := path.reverse.dropWhile (· = '/')
    if rest = [] then ['/'] else (rest.takeWhile (· ≠ '/')).reverse

/-- `m_pidFileName`, with the directory that the build decides. -/
def pidFileName (basePath name : List Char) : List Char :=
  basePath ++ basename name ++ ".pid".toList

variable {name dir base : List Char}

structure Object where
  id : ℕ
  m_pidFileName : List Char
  pid : ℕ
deriving DecidableEq

/-- The files, the objects of all processes, and the files of objects that were destroyed. -/
structure St where
  files : List Char → Option (List Char)
  objects : List Object
  next : ℕ
  gone : List (List Char)

inductive Label
  /-- `fopen` succeeds or not, and so does what writes -/
  | construct (pid : ℕ) (name : List Char) (opens writes : Bool)
  | destroy (id : ℕ) (removes : Bool)
  /-- another program -/
  | other (path : List Char) (content : Option (List Char))

/-- `"%d\n"`. -/
def content (pid : ℕ) : List Char := to_string pid ++ ['\n']

variable (basePath : List Char)

def step (s : St) : Label → Option St
  | .construct pid name opens writes =>
    let path := pidFileName basePath name
    if opens then
      some {
        files := Function.update s.files path (some (if writes then content pid else []))
        objects := s.objects ++ [⟨s.next, path, pid⟩]
        next := s.next + 1
        gone := s.gone.filter (· ≠ path) }
    else some s -- an exception, and no object
  | .destroy id removes =>
    match s.objects.find? (·.id = id) with
    | none => none
    | some o =>
      some { s with
        files := if removes then Function.update s.files o.m_pidFileName none else s.files
        objects := s.objects.filter (·.id ≠ id)
        gone := o.m_pidFileName :: s.gone }
  | .other path content =>
    some { s with
      files := Function.update s.files path content
      gone := s.gone.filter (· ≠ path) }

def init (files : List Char → Option (List Char)) : St := ⟨files, [], 0, []⟩

/-- The condition on the steps: no object is made for the file of another one, no other program
changes such a file, and a file that was opened is written and is removed. -/
def Alone (s : St) : Label → Prop
  | .construct _ name opens writes =>
    opens = true → writes = true ∧ ∀ o ∈ s.objects, o.m_pidFileName ≠ pidFileName basePath name
  | .destroy _ removes => removes = true
  | .other path _ => ∀ o ∈ s.objects, o.m_pidFileName ≠ path

structure Inv (s : St) : Prop where
  present : ∀ o ∈ s.objects, s.files o.m_pidFileName = some (content o.pid)
  absent : ∀ path ∈ s.gone, s.files path = none
  ids : ∀ o ∈ s.objects, o.id < s.next
  paths : ∀ o ∈ s.objects, ∀ o' ∈ s.objects, o.m_pidFileName = o'.m_pidFileName → o.id = o'.id

variable {basePath} {s t : St} {l : Label}

lemma construct_inv {pid : ℕ} {opens writes : Bool} (hi : Inv s)
    (hl : Alone basePath s (.construct pid name opens writes))
    (h : step basePath s (.construct pid name opens writes) = some t) : Inv t := by
  simp only [step] at h
  split at h
  · rename_i hopens
    obtain ⟨rfl, hnew⟩ := hl hopens
    cases h
    refine ⟨fun o ho => ?_, fun path hp => ?_, fun o ho => ?_, fun o ho o' ho' heq => ?_⟩
    · rcases List.mem_append.mp ho with ho | ho
      · simp only [Function.update_of_ne (hnew o ho)]
        exact hi.present o ho
      · obtain rfl := List.mem_singleton.mp ho
        exact Function.update_self ..
    · obtain ⟨hp, hne⟩ := List.mem_filter.mp hp
      simp only [Function.update_of_ne (of_decide_eq_true hne)]
      exact hi.absent path hp
    · rcases List.mem_append.mp ho with ho | ho
      · exact Nat.lt_succ_of_lt (hi.ids o ho)
      · obtain rfl := List.mem_singleton.mp ho
        exact Nat.lt_succ_self _
    · rcases List.mem_append.mp ho with ho | ho <;> rcases List.mem_append.mp ho' with ho' | ho'
      · exact hi.paths o ho o' ho' heq
      · obtain rfl := List.mem_singleton.mp ho'
        exact absurd heq (hnew o ho)
      · obtain rfl := List.mem_singleton.mp ho
        exact absurd heq.symm (hnew o' ho')
      · obtain rfl := List.mem_singleton.mp ho
        obtain rfl := List.mem_singleton.mp ho'
        rfl
  · cases h
    exact hi

lemma destroy_inv {id : ℕ} {removes : Bool} (hi : Inv s) (hl : removes = true)
    (h : step basePath s (.destroy id removes) = some t) : Inv t := by
  subst hl
  simp only [step] at h
  split at h
  · cases h
  rename_i o hfind
  cases h
  have ho : o ∈ s.objects := List.mem_of_find?_eq_some hfind
  have hid : o.id = id := by simpa using List.find?_some hfind
  refine ⟨fun o' ho' => ?_, fun path hp => ?_, fun o' ho' => ?_, fun o' ho' o'' ho'' => ?_⟩
  · obtain ⟨ho', hne⟩ := List.mem_filter.mp ho'
    have hpath : o'.m_pidFileName ≠ o.m_pidFileName := by
      intro heq
      have hsame := hi.paths o' ho' o ho heq
      simp [hsame, hid] at hne
    simp only [if_true, Function.update_of_ne hpath]
    exact hi.present o' ho'
  · by_cases heq : path = o.m_pidFileName
    · simp [heq]
    · have hold : path ∈ s.gone := (List.mem_cons.mp hp).resolve_left heq
      simp only [if_true, Function.update_of_ne heq]
      exact hi.absent path hold
  · exact hi.ids o' (List.mem_filter.mp ho').1
  · exact hi.paths o' (List.mem_filter.mp ho').1 o'' (List.mem_filter.mp ho'').1

lemma step_inv (hi : Inv s) (hl : Alone basePath s l) (h : step basePath s l = some t) :
    Inv t := by
  cases l with
  | construct pid name opens writes => exact construct_inv hi hl h
  | destroy id removes => exact destroy_inv hi hl h
  | other path content =>
    cases h
    refine ⟨fun o ho => ?_, fun p hp => ?_, hi.ids, hi.paths⟩
    · simp only [Function.update_of_ne (hl o ho)]
      exact hi.present o ho
    · obtain ⟨hp, hne⟩ := List.mem_filter.mp hp
      simp only [Function.update_of_ne (of_decide_eq_true hne)]
      exact hi.absent p hp

/-- **The file is there with the object.** In every run in which no two objects have one file at a
time, the file of every object is there with the number of its process, and the file of one that was
destroyed is not there until somebody makes it again. -/
theorem there_with_object (files : List Char → Option (List Char)) {ls : List Label}
    (h : run (step basePath) (init files) ls = some s)
    (hok : Meets (step basePath) (Alone basePath) (init files) ls) :
    (∀ o ∈ s.objects, s.files o.m_pidFileName = some (content o.pid)) ∧
      ∀ path ∈ s.gone, s.files path = none := by
  have hinit : Inv (init files) := by
    constructor <;> intro x hx <;> exact nomatch hx
  have hi : Inv s := run_inv_of_meets (fun _ _ _ hu hl ht => step_inv hu hl ht) hinit hok h
  exact ⟨hi.present, hi.absent⟩

/-- Two processes, and the first one ends. -/
def firstEnds : List Label :=
  [.construct 7 "/usr/bin/a".toList true true, .construct 8 "b".toList true true, .destroy 0 true]

theorem there_with_object_firstEnds :
    ∃ s, run (step "/var/run/".toList) (init fun _ => none) firstEnds = some s ∧
      s.files "/var/run/b.pid".toList = some (content 8) ∧
      s.files "/var/run/a.pid".toList = none := by
  have hok : Meets (step "/var/run/".toList) (Alone "/var/run/".toList) (init fun _ => none)
      firstEnds := by
    refine meets_step (fun _ => ⟨rfl, fun o ho => nomatch ho⟩) rfl <|
      meets_step (fun _ => ⟨rfl, fun o ho => ?_⟩) rfl <| meets_step rfl rfl trivial
    obtain rfl := List.mem_singleton.mp ho
    decide +kernel
  obtain ⟨hpresent, habsent⟩ := there_with_object _ rfl hok
  exact ⟨_, rfl, hpresent ⟨1, "/var/run/b.pid".toList, 8⟩ (by decide +kernel),
    habsent "/var/run/a.pid".toList (by decide +kernel)⟩

end Hbm.PidFile
