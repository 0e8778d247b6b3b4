import Hbm.Strtoul

/-!
The directives of `fscanf` in the C standard.

An input item is the longest beginning of the input, within the field width, that is a matching
sequence or the beginning of one. It is consumed also where it does not match. The call ends with
the first directive that fails: by a mismatch, or because there is no input.
-/

namespace Hbm.Scanf

open Hbm.Strtoul

/-- White space, `%*[^c]`, `%Ns`, and numbers: `%Nx` is `number 16 N` and `%Nd` is `number 10 N`. -/
inductive Directive
  | space
  | skipTo (c : Char)
  | string (width : ℕ)
  | number (base width : ℕ)

def Directive.isConversion : Directive → Bool
  | .space => false
  | _ => true

/-- What is assigned: a text, or a number with its sign. -/
inductive Value
  | text (s : List Char)
  | num (negative : Bool) (n : ℕ)
  deriving DecidableEq

inductive Failure
  | mismatch
  | input
  deriving DecidableEq

/-- What a directive does: it assigns, or does not, or it fails. -/
inductive Outcome
  | assigned (v : Value) (rest : List Char)
  | skipped (rest : List Char)
  | failed (f : Failure) (rest : List Char)
  deriving DecidableEq

/-- The `0x` in front of hexadecimal digits, which need not follow. -/
def mark (base : ℕ) : List Char → List Char × List Char
  | '0' :: x :: s => if base = 16 ∧ (x = 'x' ∨ x = 'X') then (['0', x], s) else ([], '0' :: x :: s)
  | s => ([], s)

/-- The number at the beginning of what the field width admits. -/
def scanNumber (base : ℕ) (field : List Char) : (Bool × List Char) × ℕ :=
  let signed := sign field
  let marked := mark base signed.2
  let ds := digits base marked.2
  ((signed.1, ds), field.length - signed.2.length + marked.1.length + ds.length)

def scan : Directive → List Char → Outcome
  | .space, s => .skipped (s.dropWhile isspace)
  | .skipTo c, s =>
    if s = [] then .failed .input []
    else if s.head? = some c then .failed .mismatch s
    else .skipped (s.dropWhile (· ≠ c))
  | .string width, s =>
    let t := s.dropWhile isspace
    if t = [] then .failed .input []
    else
      let item := (t.take width).takeWhile (! isspace ·)
      .assigned (.text item) (t.drop item.length)
  | .number base width, s =>
    let t := s.dropWhile isspace
    if t = [] then .failed .input []
    else
      let r := scanNumber base (t.take width)
      if r.1.2 = [] then .failed .mismatch (t.drop r.2)
      else .assigned (.num r.1.1 (value base r.1.2)) (t.drop r.2)

/-- The values that a call assigns, what it leaves, and how it ended; `completed` says whether a
conversion has been completed. -/
structure Result where
  values : List Value
  rest : List Char
  completed : Bool
  failure : Option Failure

def Result.after (v : Option Value) (completed : Bool) (r : Result) : Result :=
  ⟨v.toList ++ r.values, r.rest, completed || r.completed, r.failure⟩

def fscanf : List Directive → List Char → Result
  | [], s => ⟨[], s, false, none⟩
  | d :: ds, s =>
    match scan d s with
    | .assigned v rest => (fscanf ds rest).after (some v) true
    | .skipped rest => (fscanf ds rest).after none d.isConversion
    | .failed f rest => ⟨[], rest, false, some f⟩

/-- `EOF`, or how many values were assigned. -/
def Result.ret (r : Result) : ℤ :=
  if r.failure = some .input ∧ ¬ r.completed then -1 else r.values.length

/-- A call that fails for want of input has met the end of the file. -/
def Result.feof (r : Result) : Bool := r.failure = some .input

variable {ds es : List Directive} {s : List Char} {width : ℕ}

/-! ### What is consumed -/

def Outcome.rest : Outcome → List Char
  | .assigned _ rest => rest
  | .skipped rest => rest
  | .failed _ rest => rest

lemma length_dropWhile_le (p : Char → Bool) (s : List Char) :
    (s.dropWhile p).length ≤ s.length := (List.dropWhile_suffix p).length_le

lemma length_scan_le (d : Directive) (s : List Char) : (scan d s).rest.length ≤ s.length := by
  have hspace := length_dropWhile_le isspace s
  cases d with
  | space => exact hspace
  | skipTo c =>
    simp only [scan]
    split_ifs
    · exact Nat.zero_le _
    · exact Nat.le_refl _
    · exact length_dropWhile_le _ s
  | string width =>
    simp only [scan]
    split_ifs
    · exact Nat.zero_le _
    · rw [Outcome.rest, List.length_drop]
      omega
  | number base width =>
    simp only [scan]
    split_ifs
    · exact Nat.zero_le _
    · rw [Outcome.rest, List.length_drop]
      omega
    · rw [Outcome.rest, List.length_drop]
      omega

lemma length_fscanf_le (ds : List Directive) (s : List Char) :
    (fscanf ds s).rest.length ≤ s.length := by
  induction ds generalizing s with
  | nil => exact Nat.le_refl _
  | cons d ds ih =>
    have hscan := length_scan_le d s
    rw [fscanf]
    cases h : scan d s with
    | assigned v rest =>
      rw [h] at hscan
      exact (ih rest).trans hscan
    | skipped rest =>
      rw [h] at hscan
      exact (ih rest).trans hscan
    | failed f rest =>
      rw [h] at hscan
      exact hscan

/-- A text takes something, or there is nothing left. -/
lemma scan_string_cases (hwidth : 0 < width) (s : List Char) :
    scan (.string width) s = .failed .input [] ∨
      ∃ item rest, scan (.string width) s = .assigned (.text item) rest ∧
        rest.length < s.length := by
  have hspace := length_dropWhile_le isspace s
  have hhead : ∀ c ∈ (s.dropWhile isspace).head?, ¬ isspace c := head?_dropWhile
  simp only [scan]
  cases ht : s.dropWhile isspace with
  | nil => exact .inl (if_pos rfl)
  | cons c t =>
    rw [ht] at hspace hhead
    have hc : (! isspace c) = true := by simpa using hhead c rfl
    obtain ⟨w, rfl⟩ : ∃ w, width = w + 1 := ⟨width - 1, by omega⟩
    refine .inr ⟨_, _, if_neg (List.cons_ne_nil c t), ?_⟩
    have hitem : ((c :: t).take (w + 1)).takeWhile (! isspace ·) =
        c :: (t.take w).takeWhile (! isspace ·) := by
      rw [List.take_succ_cons, List.takeWhile_cons, if_pos hc]
    rw [hitem, List.length_drop]
    simp only [List.length_cons] at hspace ⊢
    omega

/-- A call that begins with a text ends the file, or gets on. -/
lemma fscanf_string (hwidth : 0 < width) (ds : List Directive) (s : List Char) :
    ((fscanf (.string width :: ds) s).ret < 0 ∧ (fscanf (.string width :: ds) s).feof) ∨
      0 ≤ (fscanf (.string width :: ds) s).ret ∧
        (fscanf (.string width :: ds) s).rest.length < s.length := by
  rw [fscanf]
  rcases scan_string_cases hwidth s with h | ⟨item, rest, h, hlt⟩
  · rw [h]
    exact .inl ⟨Int.negSucc_lt_zero 0, rfl⟩
  · rw [h]
    refine .inr ⟨?_, (length_fscanf_le ds rest).trans_lt hlt⟩
    simp [Result.ret, Result.after]
    omega

/-! ### Calls that succeed -/

/-- The directives in front have done their work. -/
lemma fscanf_append (h : (fscanf ds s).failure = none) :
    fscanf (ds ++ es) s =
      ⟨(fscanf ds s).values ++ (fscanf es (fscanf ds s).rest).values,
        (fscanf es (fscanf ds s).rest).rest,
        (fscanf ds s).completed || (fscanf es (fscanf ds s).rest).completed,
        (fscanf es (fscanf ds s).rest).failure⟩ := by
  induction ds generalizing s with
  | nil => simp [fscanf]
  | cons d ds ih =>
    rw [List.cons_append, fscanf]
    rw [fscanf] at h ⊢
    cases hscan : scan d s with
    | assigned v rest =>
      rw [hscan] at h
      simp [Result.after, ih h]
    | skipped rest =>
      rw [hscan] at h
      simp [Result.after, ih h, Bool.or_assoc]
    | failed f rest =>
      rw [hscan] at h
      cases h

/-! ### What is found -/

variable {base : ℕ} {blanks sgn cs rest : List Char} {c : Char}

lemma digit_of_isspace (h : isspace c) : digit c = 36 := by
  have hall : ∀ n ∈ [9, 10, 11, 12, 13, 32], digit (Char.ofNat n) = 36 := by decide
  have hc : c.toNat = 32 ∨ 9 ≤ c.toNat ∧ c.toNat ≤ 13 := of_decide_eq_true h
  have hmem : c.toNat ∈ [9, 10, 11, 12, 13, 32] := by
    simp only [List.mem_cons, List.not_mem_nil, or_false]
    omega
  rw [← hall c.toNat hmem, Char.ofNat_toNat]

/-- There is no sign in front of a digit. -/
lemma sign_of_digit (h : digit c < 36) (s : List Char) : sign (c :: s) = (false, c :: s) := by
  refine sign_of_ne ?_ ?_
  · rintro rfl
    exact absurd h (by decide)
  · rintro rfl
    exact absurd h (by decide)

/-- The second character is not the `x` of a mark. -/
lemma mark_eq (h : ∀ c ∈ s.tail.head?, c ≠ 'x' ∧ c ≠ 'X') : mark base s = ([], s) := by
  unfold mark
  split
  · next x s =>
    have hx := h x rfl
    rw [if_neg]
    rintro ⟨-, rfl | rfl⟩
    · exact hx.1 rfl
    · exact hx.2 rfl
  · rfl

/-- A number with digits that fit in the field is scanned as a whole. -/
lemma scanNumber_append (hbase : base ≤ 16) (hsgn : sgn = [] ∨ sgn = ['-']) (hne : cs ≠ [])
    (hds : ∀ c ∈ cs, digit c < base) (hrest : ∀ c ∈ rest.head?, isspace c) :
    scanNumber base (sgn ++ cs ++ rest) =
      ((decide (sgn = ['-']), cs), sgn.length + cs.length) := by
  obtain ⟨d, cs, rfl⟩ := List.exists_cons_of_ne_nil hne
  have hsign : sign (sgn ++ (d :: cs) ++ rest) = (decide (sgn = ['-']), d :: cs ++ rest) := by
    rcases hsgn with rfl | rfl
    · have hd : digit d < 36 := by
        have := hds d List.mem_cons_self
        omega
      exact sign_of_digit hd _
    · rfl
  have hspace : ∀ c ∈ rest.head?, ¬ digit c < base := fun c hc => by
    rw [digit_of_isspace (hrest c hc)]
    omega
  have hmark : mark base (d :: cs ++ rest) = ([], d :: cs ++ rest) := by
    refine mark_eq fun c hc => ?_
    have hcases : digit c < 16 ∨ digit c = 36 := by
      cases cs with
      | nil => exact .inr (digit_of_isspace (hrest c hc))
      | cons e cs =>
        have he := hds e (by simp)
        obtain rfl : e = c := Option.some_inj.mp hc
        exact .inl (by omega)
    constructor
    · rintro rfl
      exact absurd hcases (by decide)
    · rintro rfl
      exact absurd hcases (by decide)
  have hdigits : digits base (d :: cs ++ rest) = d :: cs :=
    (span_append (fun c hc => decide_eq_true (hds c hc)) fun c hc => by
      simpa using hspace c hc).1
  rw [scanNumber, hsign, hmark, hdigits]
  simp

lemma head?_take {n : ℕ} (h : c ∈ (rest.take n).head?) : c ∈ rest.head? := by
  cases n with
  | zero => cases h
  | succ n =>
    cases rest with
    | nil => cases h
    | cons d rest => exact h

/-- **A number that is printed is scanned.** -/
lemma scan_number (hbase : base ≤ 16) (hblanks : ∀ c ∈ blanks, isspace c)
    (hsgn : sgn = [] ∨ sgn = ['-']) (hne : cs ≠ []) (hds : ∀ c ∈ cs, digit c < base)
    (hwidth : sgn.length + cs.length ≤ width) (hrest : ∀ c ∈ rest.head?, isspace c) :
    scan (.number base width) (blanks ++ (sgn ++ cs ++ rest)) =
      .assigned (.num (decide (sgn = ['-'])) (value base cs)) rest := by
  have hskip : (blanks ++ (sgn ++ cs ++ rest)).dropWhile isspace = sgn ++ cs ++ rest := by
    refine (span_append hblanks fun c hc => ?_).2
    rcases hsgn with rfl | rfl
    · obtain ⟨d, cs, rfl⟩ := List.exists_cons_of_ne_nil hne
      obtain rfl : d = c := Option.some_inj.mp hc
      have hd := hds d List.mem_cons_self
      intro hspace
      rw [digit_of_isspace hspace] at hd
      omega
    · obtain rfl : '-' = c := Option.some_inj.mp hc
      decide
  have htake : (sgn ++ cs ++ rest).take width =
      sgn ++ cs ++ rest.take (width - (sgn.length + cs.length)) := by
    rw [List.take_append, List.length_append, List.take_of_length_le]
    rw [List.length_append]
    exact hwidth
  have hnil : sgn ++ cs ++ rest ≠ [] := by simp [hne]
  have hhead : ∀ c ∈ (rest.take (width - (sgn.length + cs.length))).head?, isspace c :=
    fun c hc => hrest c (head?_take hc)
  simp only [scan, hskip, if_neg hnil, htake, scanNumber_append hbase hsgn hne hds hhead,
    if_neg hne]
  rw [← List.length_append, List.drop_left]

/-- A text without white space is scanned as a whole. -/
lemma scan_string (hne : s ≠ []) (hs : ∀ c ∈ s, ¬ isspace c) (hwidth : s.length ≤ width)
    (hrest : ∀ c ∈ rest.head?, isspace c) :
    scan (.string width) (s ++ rest) = .assigned (.text s) rest := by
  have hskip : (s ++ rest).dropWhile isspace = s ++ rest := by
    obtain ⟨c, s, rfl⟩ := List.exists_cons_of_ne_nil hne
    exact List.dropWhile_cons_of_neg (hs c List.mem_cons_self)
  have htake : (s ++ rest).take width = s ++ rest.take (width - s.length) := by
    rw [List.take_append, List.take_of_length_le hwidth]
  have hitem : (s ++ rest.take (width - s.length)).takeWhile (! isspace ·) = s := by
    refine (span_append (fun c hc => by simpa using hs c hc) fun c hc => ?_).1
    simpa using hrest c (head?_take hc)
  have hnil : s ++ rest ≠ [] := by simp [hne]
  simp only [scan, hskip, if_neg hnil, htake, hitem]
  rw [List.drop_left]

end Hbm.Scanf
