import Hbm.InetPton
import Hbm.LongestRun

/-!
`inet_ntop` of the C library for an IPv6 address, and `inet_pton` behind it.

The address is written as eight words. The first one of the longest runs of zeros, from two words
on, becomes `::`; behind an address that begins so the last two words may be written as an IPv4
address.
-/

namespace Hbm.InetNtop

open Hbm.Strtoul Hbm.Dotted Hbm.Inet Hbm.InetPton Hbm.LongestRun

/-! ### The code -/

/-- The bytes of an address. -/
def octet (src : Fin 16 → BitVec 8) (k : ℕ) : ℕ := ((List.ofFn src).map BitVec.toNat).getD k 0

/-- The words, in host byte order. -/
def word (src : Fin 16 → BitVec 8) (i : ℕ) : ℕ := 256 * octet src (2 * i) + octet src (2 * i + 1)

/-- `"%x"` -/
def hex (n : ℕ) : List Char := Nat.toDigits 16 n

variable (words : ℕ → ℕ)

def best : Option Run := (longest (words · = 0) 8).filter (2 ≤ ·.len)

def inside (i : ℕ) : Bool := (best words).any fun r => r.base ≤ i ∧ i < r.base + r.len

/-- Is this address an encapsulated IPv4? -/
def encapsulated : Bool :=
  (best words).any fun r => r.base = 0 ∧ (r.len = 6 ∨ r.len = 5 ∧ words 5 = 0xffff)

/-- Was it a trailing run of zeros? -/
def trailing : List Char := if (best words).any fun r => r.base + r.len = 8 then [':'] else []

/-- The last two words as an address. -/
def lastFour : BitVec 32 := BitVec.ofNat 32 (65536 * words 6 + words 7)

/-- The loop, with the turns that are left. -/
def formatFrom : ℕ → ℕ → List Char
  | 0, _ => trailing words
  | n + 1, i =>
    if inside words i then
      (if (best words).any (·.base = i) then [':'] else []) ++ formatFrom n (i + 1)
    else
      (if i ≠ 0 then [':'] else []) ++
        if i = 6 ∧ encapsulated words then inet_ntoa (lastFour words) ++ trailing words
        else hex (words i) ++ formatFrom n (i + 1)

def format : List Char := formatFrom words 8 0

def inet_ntop6 (src : Fin 16 → BitVec 8) : List Char := format (word src)

/-! ### Numbers in base sixteen -/

variable {words} {n m i v w : ℕ} {rest : List Char}

lemma hex_ne_nil (n : ℕ) : hex n ≠ [] := Nat.toDigits_ne_nil

lemma length_hex_le (h : n < 65536) : (hex n).length ≤ 4 :=
  (Nat.length_toDigits_le_iff (by decide) (by decide)).mpr h

lemma length_hex_pos (n : ℕ) : 0 < (hex n).length := Nat.length_toDigits_pos

/-- The digits are written in lower case. -/
lemma exists_digitChar : ∀ c ∈ hex n, ∃ d < 16, c = Nat.digitChar d := by
  induction n using Nat.strongRecOn with
  | ind n ih =>
    intro c hc
    rw [hex, Nat.toDigits_eq_if (by decide)] at hc
    split_ifs at hc with hlt
    · exact ⟨n, hlt, List.mem_singleton.mp hc⟩
    · rcases List.mem_append.mp hc with hc | hc
      · exact ih (n / 16) (by omega) c hc
      · exact ⟨n % 16, Nat.mod_lt n (by decide), List.mem_singleton.mp hc⟩

lemma digit_digitChar_lower : ∀ d < 16, digit (Nat.digitChar d) = d := by decide

lemma digit_lt_of_mem_hex : ∀ c ∈ hex n, digit c < 16 := by
  intro c hc
  obtain ⟨d, hd, rfl⟩ := exists_digitChar c hc
  rwa [digit_digitChar_lower d hd]

@[simp] lemma value_hex (n : ℕ) : value 16 (hex n) = n := by
  induction n using Nat.strongRecOn with
  | ind n ih =>
    rw [hex, Nat.toDigits_eq_if (by decide)]
    split_ifs with hlt
    · simp [value, digit_digitChar_lower n hlt]
    · rw [value_concat, ← hex, ih (n / 16) (by omega),
        digit_digitChar_lower _ (Nat.mod_lt n (by decide))]
      omega

lemma hex_injective : Function.Injective hex := fun n m h => by rw [← value_hex n, h, value_hex]

/-! ### Shapes -/

/-- Words, with a colon in front of each. -/
def groups (words : ℕ → ℕ) (i n : ℕ) : List Char :=
  (List.range' i n).flatMap fun j => ':' :: hex (words j)

@[simp] lemma groups_zero (i : ℕ) : groups words i 0 = [] := rfl

lemma groups_succ (i n : ℕ) :
    groups words i (n + 1) = ':' :: (hex (words i) ++ groups words (i + 1) n) := rfl

/-- Words outside the run. -/
lemma formatFrom_outside (hi : i ≠ 0) (hout : ∀ j, i ≤ j → j < i + m → inside words j = false)
    (hfour : encapsulated words = false ∨ i + m ≤ 6) :
    formatFrom words (m + n) i = groups words i m ++ formatFrom words n (i + m) := by
  induction m generalizing i with
  | zero => simp
  | succ m ih =>
    have hrest := ih (i := i + 1) (Nat.succ_ne_zero i)
      (fun j hj hj' => hout j (by omega) (by omega)) (hfour.imp_right fun h => by omega)
    have hno : ¬ (i = 6 ∧ encapsulated words = true) := by
      rintro ⟨rfl, htrue⟩
      rcases hfour with hfalse | hle
      · exact absurd (htrue.symm.trans hfalse) (by decide)
      · omega
    have hthis : ¬ inside words i = true := by simp [hout i le_rfl (by omega)]
    rw [Nat.add_right_comm, formatFrom, if_neg hthis, if_pos hi, if_neg hno, hrest, groups_succ,
      Nat.add_right_comm i 1 m, Nat.add_assoc i m 1]
    simp

/-- Words inside the run, behind its first one. -/
lemma formatFrom_inside {r : Run} (hbest : best words = some r) (hi : r.base < i)
    (hin : i + m ≤ r.base + r.len) :
    formatFrom words (m + n) i = formatFrom words n (i + m) := by
  induction m generalizing i with
  | zero => simp
  | succ m ih =>
    have hthis : inside words i = true := by
      simp only [inside, hbest, Option.any_some, decide_eq_true_eq]
      omega
    have hbase : ¬ (best words).any (·.base = i) = true := by
      simp only [hbest, Option.any_some, decide_eq_true_eq]
      omega
    rw [Nat.add_right_comm, formatFrom, if_pos hthis, if_neg hbase, List.nil_append,
      ih (by omega) (by omega), Nat.add_right_comm i 1 m, Nat.add_assoc i m 1]

lemma best_spec {r : Run} (hbest : best words = some r) :
    IsRun (words · = 0) 8 r ∧ 2 ≤ r.len := by
  obtain ⟨hlongest, hlen⟩ := Option.filter_eq_some_iff.mp hbest
  exact ⟨(longest_best 8).1 r hlongest, by simpa using hlen⟩

/-- No word is left out. -/
lemma format_none (hbest : best words = none) :
    format words = hex (words 0) ++ groups words 1 7 := by
  have hout : ∀ j, inside words j = false := fun j => by simp [inside, hbest]
  have hfour : encapsulated words = false := by simp [encapsulated, hbest]
  have hrest : formatFrom words 7 1 = groups words 1 7 ++ trailing words :=
    formatFrom_outside (m := 7) (n := 0) one_ne_zero (fun j _ _ => hout j) (.inl hfour)
  rw [format, formatFrom, hout, hrest]
  simp [trailing, hbest]

/-- From the run on. -/
lemma formatFrom_base {r : Run} (hbest : best words = some r) :
    formatFrom words (8 - r.base) r.base =
      ':' :: formatFrom words (8 - (r.base + r.len)) (r.base + r.len) := by
  obtain ⟨hrun, hlen⟩ := best_spec hbest
  have hle := hrun.le
  have hturns : 8 - r.base = (r.len - 1 + (8 - (r.base + r.len))) + 1 := by omega
  have hin : inside words r.base = true := by
    simp only [inside, hbest, Option.any_some, decide_eq_true_eq]
    omega
  have hbase : (best words).any (·.base = r.base) = true := by simp [hbest]
  have hend : r.base + 1 + (r.len - 1) = r.base + r.len := by omega
  rw [hturns, formatFrom, if_pos hin, if_pos hbase,
    formatFrom_inside hbest (Nat.lt_succ_self _) (by omega), hend]
  rfl

/-- From behind the run on. -/
lemma formatFrom_behind {r : Run} (hbest : best words = some r)
    (hfour : encapsulated words = false) :
    formatFrom words (8 - (r.base + r.len)) (r.base + r.len) =
      groups words (r.base + r.len) (8 - (r.base + r.len)) ++ trailing words := by
  obtain ⟨hrun, hlen⟩ := best_spec hbest
  have hpos := hrun.pos
  refine formatFrom_outside (n := 0) (by omega) (fun j hj _ => ?_) (.inl hfour)
  simp only [inside, hbest, Option.any_some, decide_eq_false_iff_not]
  omega

/-- The words up to the run are written as they are. -/
lemma format_some {r : Run} (hbest : best words = some r) (hbase : 0 < r.base) :
    format words = hex (words 0) ++ (groups words 1 (r.base - 1) ++
      ':' :: (groups words (r.base + r.len) (8 - (r.base + r.len)) ++ trailing words)) := by
  obtain ⟨hrun, hlen⟩ := best_spec hbest
  have hle := hrun.le
  have hout : ∀ j, j < r.base → inside words j = false := fun j hj => by
    simp only [inside, hbest, Option.any_some, decide_eq_false_iff_not]
    omega
  have hfour : encapsulated words = false := by
    simp only [encapsulated, hbest, Option.any_some, decide_eq_false_iff_not]
    omega
  have hturns : 7 = (r.base - 1) + (8 - r.base) := by omega
  have hend : 1 + (r.base - 1) = r.base := by omega
  have hrest : formatFrom words 7 1 = groups words 1 (r.base - 1) ++
      formatFrom words (8 - r.base) r.base := by
    conv_lhs => rw [hturns]
    rw [formatFrom_outside one_ne_zero (fun j _ hj => hout j (by omega)) (.inl hfour), hend]
  rw [format, formatFrom, hout 0 hbase, hrest, formatFrom_base hbest, formatFrom_behind hbest hfour]
  simp

/-- The run is in front. -/
lemma format_front {r : Run} (hbest : best words = some r) (hbase : r.base = 0)
    (hfour : encapsulated words = false) :
    format words = ':' :: (groups words r.len (8 - r.len) ++ trailing words) := by
  have hfront := formatFrom_base hbest
  rw [formatFrom_behind hbest hfour, hbase, Nat.zero_add] at hfront
  exact hfront

/-- The last two words are an IPv4 address. -/
lemma format_encapsulated (hfour : encapsulated words = true) :
    format words = "::".toList ++ inet_ntoa (lastFour words) ∧ (∀ i < 6, words i = 0) ∨
      format words = mappedPrefix ++ inet_ntoa (lastFour words) ∧ (∀ i < 5, words i = 0) ∧
        words 5 = 0xffff := by
  obtain ⟨⟨base, len⟩, hbest, hr⟩ := Option.any_eq_true _ _ |>.mp hfour
  obtain ⟨rfl, hlen⟩ : base = 0 ∧ (len = 6 ∨ len = 5 ∧ words 5 = 0xffff) := of_decide_eq_true hr
  have hrun := (best_spec hbest).1
  have hle : len ≤ 6 := by omega
  have hzero : ∀ i < len, words i = 0 := fun i hi => hrun.all i (Nat.zero_le i) (by simpa using hi)
  have hfront : format words = ':' :: formatFrom words (8 - len) len := by
    have h := formatFrom_base hbest
    rwa [Nat.zero_add] at h
  have hlast : formatFrom words 2 6 = ':' :: inet_ntoa (lastFour words) := by
    have hout : inside words 6 = false := by
      simp only [inside, hbest, Option.any_some, Nat.zero_add, decide_eq_false_iff_not]
      omega
    have htrailing : trailing words = [] := by
      rw [trailing, if_neg]
      simp only [hbest, Option.any_some, Nat.zero_add, decide_eq_true_eq]
      omega
    rw [formatFrom, hout, if_neg Bool.false_ne_true, if_pos (by decide), if_pos ⟨rfl, hfour⟩,
      htrailing, List.append_nil]
    rfl
  rcases hlen with rfl | ⟨rfl, hones⟩
  · left
    rw [hfront, hlast]
    exact ⟨rfl, hzero⟩
  · right
    have hfive : formatFrom words 3 5 = groups words 5 1 ++ formatFrom words 2 6 := by
      refine formatFrom_outside (m := 1) (n := 2) (by decide) (fun j hj hj' => ?_) (.inr le_rfl)
      simp only [inside, hbest, Option.any_some, decide_eq_false_iff_not]
      omega
    have hffff : hex 0xffff = "ffff".toList := by decide
    rw [hfront, hfive, hlast, groups_succ, hones, hffff]
    exact ⟨rfl, hzero, rfl⟩

/-! ### Reading -/

/-- The two bytes of a word. -/
def pair (w : ℕ) : List ℕ := [w / 256, w % 256]

def pairs (words : ℕ → ℕ) (i n : ℕ) : List ℕ := (List.range' i n).flatMap fun j => pair (words j)

lemma pairs_succ (i n : ℕ) : pairs words i (n + 1) = pair (words i) ++ pairs words (i + 1) n := rfl

lemma length_pairs (i n : ℕ) : (pairs words i n).length = 2 * n := by
  simp [pairs, pair, List.length_flatMap, Nat.mul_comm]

lemma pairs_append (words : ℕ → ℕ) (i m n : ℕ) :
    pairs words i m ++ pairs words (i + m) n = pairs words i (m + n) := by
  rw [pairs, pairs, ← List.flatMap_append, List.range'_append_1, pairs]

lemma pairs_zero (hzero : ∀ j, i ≤ j → j < i + n → words j = 0) :
    pairs words i n = List.replicate (2 * n) 0 := by
  refine List.eq_replicate_iff.mpr ⟨length_pairs i n, fun b hb => ?_⟩
  obtain ⟨j, hj, hb⟩ := List.mem_flatMap.mp hb
  obtain ⟨hij, hjn⟩ := List.mem_range'_1.mp hj
  simpa [pair, hzero j hij hjn] using hb

variable {done : List ℕ} {colonp : Option ℕ} {curtok : List Char} {s : State}

/-- The state behind a word, which is not stored yet. -/
def behind (done : List ℕ) (colonp : Option ℕ) (curtok : List Char) (v : ℕ) : State :=
  ⟨done, colonp, curtok, (hex v).length, v⟩

lemma pton6From_digits {ds : List Char} (hds : ∀ c ∈ ds, digit c < 16)
    (hlen : s.xdigits + ds.length ≤ 4) :
    pton6From (ds ++ rest) s = pton6From rest
      { s with xdigits := s.xdigits + ds.length, val := 16 ^ ds.length * s.val + value 16 ds } := by
  induction ds generalizing s with
  | nil => simp [value]
  | cons c ds ih =>
    obtain ⟨hc, hds⟩ := List.forall_mem_cons.mp hds
    rw [List.length_cons] at hlen
    have hfour : ¬ s.xdigits = 4 := by omega
    have hval : 16 ^ ds.length * (16 * s.val + digit c) + value 16 ds =
        16 ^ (c :: ds).length * s.val + value 16 (c :: ds) := by
      rw [value_cons, List.length_cons, Nat.pow_succ, Nat.mul_add, Nat.mul_assoc, Nat.add_assoc]
    rw [List.cons_append, pton6From, if_pos hc, if_neg hfour, ih hds (by dsimp only; omega)]
    dsimp only
    rw [hval, List.length_cons, Nat.add_assoc, Nat.add_comm 1]

lemma pton6From_hex (hw : w < 65536) : pton6From (hex w ++ rest) ⟨done, colonp, curtok, 0, 0⟩ =
    pton6From rest (behind done colonp curtok w) := by
  rw [pton6From_digits digit_lt_of_mem_hex (by simpa using length_hex_le hw)]
  simp [behind]

lemma digit_colon : ¬ digit ':' < 16 := by decide

/-- A colon stores the word in front of it. -/
lemma pton6From_colon (hrest : rest ≠ []) (hbytes : done.length + 2 ≤ 16) :
    pton6From (':' :: rest) (behind done colonp curtok v) =
      pton6From rest ⟨done ++ pair v, colonp, rest, 0, 0⟩ := by
  have hdigits : ¬ (hex v).length = 0 := (length_hex_pos v).ne'
  have hroom : ¬ (rest = [] ∨ 16 < done.length + 2) := by
    rintro (h | h)
    · exact hrest h
    · omega
  rw [behind, pton6From, if_neg digit_colon, if_pos rfl]
  dsimp only
  rw [if_neg hdigits, if_neg hroom, pair]

/-- A colon with no word in front of it is for the zeros. -/
lemma pton6From_zeros : pton6From (':' :: rest) ⟨done, none, curtok, 0, 0⟩ =
    pton6From rest ⟨done, some done.length, rest, 0, 0⟩ := by
  rw [pton6From, if_neg digit_colon, if_pos rfl]
  simp

lemma pton6From_groups (hwords : ∀ j, words j < 65536) (done : List ℕ) (colonp : Option ℕ)
    (curtok rest : List Char) (v i n : ℕ) (hroom : done.length + 2 + 2 * n ≤ 16) :
    ∃ done' curtok' v', pton6From (groups words i n ++ rest) (behind done colonp curtok v) =
        pton6From rest (behind done' colonp curtok' v') ∧
      done' ++ pair v' = done ++ pair v ++ pairs words i n := by
  induction n generalizing i done curtok v with
  | zero => exact ⟨done, curtok, v, rfl, by simp [pairs]⟩
  | succ n ih =>
    have hlen : (done ++ pair v).length = done.length + 2 := by simp [pair]
    obtain ⟨done', curtok', v', hrun, hstored⟩ := ih (done ++ pair v)
      (hex (words i) ++ (groups words (i + 1) n ++ rest)) (words i) (i + 1) (by omega)
    refine ⟨done', curtok', v', ?_, ?_⟩
    · rw [groups_succ, List.cons_append, List.append_assoc,
        pton6From_colon (by simp [hex_ne_nil]) (by omega), pton6From_hex (hwords i), hrun]
    · rw [hstored, pairs_succ]
      simp

lemma finish_behind (hlen : done.length + 2 = 16) :
    finish (behind done none curtok v) = some (done ++ pair v) := by
  have hpos := length_hex_pos v
  simp [finish, behind, pair, hpos, hlen]

lemma finish_zeros {k : ℕ} (hlen : done.length + 2 < 16) :
    finish (behind done (some k) curtok v) = some ((done ++ pair v).take k ++
      List.replicate (16 - (done ++ pair v).length) 0 ++ (done ++ pair v).drop k) := by
  have hpos := length_hex_pos v
  have hroom : ¬ 16 < done.length + 2 := by omega
  have hfull : ¬ done.length + 2 = 16 := by omega
  simp [finish, behind, pair, hpos, hroom, hfull]

/-- From the second colon of the zeros on. -/
lemma read_zeros (hwords : ∀ j, words j < 65536) (hlen : done.length + 2 * m < 16) :
    (pton6From (groups words i m ++ if m = 0 then [':'] else [])
        ⟨done, none, curtok, 0, 0⟩).bind finish =
      some (done ++ List.replicate (16 - done.length - 2 * m) 0 ++ pairs words i m) := by
  cases m with
  | zero =>
    have hfull : ¬ done.length = 16 := by omega
    rw [groups_zero, List.nil_append, if_pos rfl, pton6From_zeros, pton6From, Option.bind_some,
      finish]
    simp [pairs, hfull]
  | succ m =>
    obtain ⟨done', curtok', v', hrun, hstored⟩ := pton6From_groups hwords done
      (some done.length) (hex (words i) ++ (groups words (i + 1) m ++ [])) [] (words i) (i + 1) m
      (by omega)
    have hlength : done'.length + 2 = done.length + 2 + 2 * m := by
      have h := congrArg List.length hstored
      simp only [pair, List.length_append, List.length_cons, List.length_nil, length_pairs] at h
      omega
    have hall : done' ++ pair v' = done ++ pairs words i (m + 1) := by
      rw [hstored, pairs_succ, List.append_assoc]
    rw [if_neg (Nat.succ_ne_zero m), groups_succ, List.cons_append, List.append_assoc,
      pton6From_zeros, pton6From_hex (hwords i), hrun, pton6From, Option.bind_some,
      finish_zeros (by omega), hall, List.take_left, List.drop_left, List.length_append,
      length_pairs, Nat.sub_add_eq]

/-! ### The round trip -/

lemma mem_inet_ntoa {a : BitVec 32} : ∀ c ∈ inet_ntoa a, c.isDigit ∨ c = '.' := by
  intro c hc
  rw [inet_ntoa_eq] at hc
  simp only [List.mem_append, List.mem_cons] at hc
  rcases hc with hc | rfl | hc | rfl | hc | rfl | hc
  any_goals exact .inr rfl
  all_goals exact .inl (isDigit_of_mem_to_string c hc)

lemma mem_formatFrom : ∀ c ∈ formatFrom words n i, digit c < 16 ∨ c = ':' ∨ c = '.' := by
  have hcolon : ∀ {P : Prop} [Decidable P], ∀ c ∈ (if P then [':'] else []), c = ':' := by
    intro P _ c hc
    split_ifs at hc with hp
    · exact List.mem_singleton.mp hc
    · cases hc
  induction n generalizing i with
  | zero => exact fun c hc => .inr (.inl (hcolon c hc))
  | succ n ih =>
    intro c hc
    rw [formatFrom] at hc
    by_cases hin : inside words i
    · rw [if_pos hin] at hc
      rcases List.mem_append.mp hc with hc | hc
      · exact .inr (.inl (hcolon c hc))
      · exact ih c hc
    · rw [if_neg hin] at hc
      rcases List.mem_append.mp hc with hc | hc
      · exact .inr (.inl (hcolon c hc))
      split_ifs at hc <;> rcases List.mem_append.mp hc with hc | hc
      · exact (mem_inet_ntoa c hc).imp (fun h => lt_trans (digit_lt_ten.mpr h) (by decide)) .inr
      · exact .inr (.inl (hcolon c hc))
      · exact .inl (digit_lt_of_mem_hex c hc)
      · exact ih c hc

lemma cStr_format (words : ℕ → ℕ) : cStr (format words) = format words := by
  refine cStr_eq fun c hc h0 => ?_
  have hc0 : c = Char.ofNat 0 := Char.toNat_inj.mp h0
  have hnone : ¬ (digit (Char.ofNat 0) < 16 ∨ Char.ofNat 0 = ':' ∨ Char.ofNat 0 = '.') := by decide
  exact hnone (hc0 ▸ mem_formatFrom c hc)

lemma inet_pton6_digit {cp : List Char} {c : Char} (h : cStr cp = c :: rest) (hc : digit c < 16) :
    inet_pton6 cp = (pton6From (c :: rest) ⟨[], none, c :: rest, 0, 0⟩).bind finish := by
  have hcolon : c ≠ ':' := fun heq => digit_colon (heq ▸ hc)
  unfold inet_pton6
  rw [h]
  split
  · contradiction
  · rename_i heq
    exact absurd (List.cons.inj heq).1 hcolon
  · rfl

lemma inet_pton6_hex {cp : List Char} (h : cStr cp = hex w ++ rest) :
    inet_pton6 cp =
      (pton6From (hex w ++ rest) ⟨[], none, hex w ++ rest, 0, 0⟩).bind finish := by
  obtain ⟨c, cs, hc⟩ := List.exists_cons_of_ne_nil (hex_ne_nil w)
  have hdigit : digit c < 16 := digit_lt_of_mem_hex c (hc ▸ List.mem_cons_self)
  rw [hc, List.cons_append] at h ⊢
  exact inet_pton6_digit h hdigit

/-- What comes behind the colon that stores the last word in front of the zeros. -/
lemma read_behind {r : Run} (hwords : ∀ j, words j < 65536) (hbest : best words = some r)
    (curtok : List Char) :
    (pton6From (groups words (r.base + r.len) (8 - (r.base + r.len)) ++ trailing words)
        ⟨pairs words 0 r.base, none, curtok, 0, 0⟩).bind finish = some (pairs words 0 8) := by
  obtain ⟨hrun, hlen⟩ := best_spec hbest
  have hle := hrun.le
  have htrailing : trailing words = if 8 - (r.base + r.len) = 0 then [':'] else [] := by
    have hiff : r.base + r.len = 8 ↔ 8 - (r.base + r.len) = 0 := by omega
    simp [trailing, hbest, hiff]
  have hzeros : 16 - (pairs words 0 r.base).length - 2 * (8 - (r.base + r.len)) = 2 * r.len := by
    rw [length_pairs]
    omega
  have hend : r.base + r.len + (8 - (r.base + r.len)) = 8 := by omega
  have hrunZero : pairs words r.base r.len = List.replicate (2 * r.len) 0 :=
    pairs_zero fun j hj hj' => hrun.all j hj hj'
  rw [htrailing, read_zeros hwords (by rw [length_pairs]; omega), hzeros, ← hrunZero]
  have hfirst := pairs_append words 0 r.base r.len
  rw [Nat.zero_add] at hfirst
  have hall := pairs_append words 0 (r.base + r.len) (8 - (r.base + r.len))
  rw [Nat.zero_add, hend] at hall
  rw [hfirst, hall]

lemma read_none (hwords : ∀ j, words j < 65536) (hbest : best words = none) :
    inet_pton6 (format words) = some (pairs words 0 8) := by
  obtain ⟨done', curtok', v', hrun, hstored⟩ := pton6From_groups hwords [] none
    (hex (words 0) ++ groups words 1 7) [] (words 0) 1 7 (by decide)
  have hlength : done'.length + 2 = 16 := by
    have h := congrArg List.length hstored
    simpa [pair, length_pairs] using h
  have hcStr := cStr_format words
  rw [format_none hbest] at hcStr ⊢
  rw [List.append_nil] at hrun
  rw [inet_pton6_hex hcStr, pton6From_hex (hwords 0), hrun, pton6From, Option.bind_some,
    finish_behind hlength, hstored]
  rfl

/-- The second colon of the zeros is written in any case. -/
lemma exists_colon {r : Run} (hbest : best words = some r) :
    ∃ src, groups words (r.base + r.len) (8 - (r.base + r.len)) ++ trailing words = ':' :: src := by
  cases hm : 8 - (r.base + r.len) with
  | zero =>
    have hle := (best_spec hbest).1.le
    have hend : r.base + r.len = 8 := by omega
    exact ⟨[], by simp [trailing, hbest, hend]⟩
  | succ m => exact ⟨_, by rw [groups_succ, List.cons_append]⟩

lemma read_some {r : Run} (hwords : ∀ j, words j < 65536) (hbest : best words = some r)
    (hbase : 0 < r.base) : inet_pton6 (format words) = some (pairs words 0 8) := by
  obtain ⟨hrun, hlen⟩ := best_spec hbest
  have hle := hrun.le
  have hcStr := cStr_format words
  rw [format_some hbest hbase] at hcStr ⊢
  obtain ⟨src, hsrc⟩ := exists_colon hbest
  set rest := groups words (r.base + r.len) (8 - (r.base + r.len)) ++ trailing words with hrest
  have hne : rest ≠ [] := hsrc ▸ List.cons_ne_nil _ _
  set text := hex (words 0) ++ (groups words 1 (r.base - 1) ++ ':' :: rest)
  obtain ⟨done', curtok', v', hgroups, hstored⟩ := pton6From_groups hwords [] none text
    (':' :: rest) (words 0) 1 (r.base - 1) (by simp only [List.length_nil]; omega)
  have hall : done' ++ pair v' = pairs words 0 r.base := by
    have hsplit := pairs_append words 0 1 (r.base - 1)
    rw [Nat.zero_add, Nat.add_sub_cancel' hbase] at hsplit
    rw [hstored, ← hsplit]
    rfl
  have hlength : done'.length + 2 ≤ 16 := by
    have h := congrArg List.length hall
    simp only [pair, List.length_append, List.length_cons, List.length_nil, length_pairs] at h
    omega
  rw [inet_pton6_hex hcStr, pton6From_hex (hwords 0), hgroups, pton6From_colon hne hlength, hall,
    hrest]
  exact read_behind hwords hbest _

lemma read_front {r : Run} (hwords : ∀ j, words j < 65536) (hbest : best words = some r)
    (hbase : r.base = 0) (hfour : encapsulated words = false) :
    inet_pton6 (format words) = some (pairs words 0 8) := by
  have hcStr := cStr_format words
  rw [format_front hbest hbase hfour] at hcStr ⊢
  obtain ⟨src, hsrc⟩ := exists_colon hbest
  have hread := read_behind hwords hbest (':' :: src)
  rw [hsrc, hbase] at hread
  rw [hbase, Nat.zero_add] at hsrc
  rw [inet_pton6_colon hcStr (by rw [hsrc]; rfl), hsrc]
  exact hread

lemma bytes_lastFour (hwords : ∀ j, words j < 65536) :
    bytes (lastFour words) = pair (words 6) ++ pair (words 7) := by
  have h6 := hwords 6
  have h7 := hwords 7
  simp only [bytes, byte, lastFour, BitVec.toNat_ofNat, List.range_succ, List.range_zero, pair,
    List.nil_append, List.cons_append, List.map_cons, List.map_nil, List.cons.injEq, and_true]
  omega

/-- An IPv4 address behind zeros alone. -/
lemma inet_pton6_compatible (a : BitVec 32) :
    inet_pton6 ("::".toList ++ inet_ntoa a) = some (List.replicate 12 0 ++ bytes a) := by
  have hcStr : cStr ("::".toList ++ inet_ntoa a) = ':' :: ':' :: inet_ntoa a := by
    have h : cStr ("::".toList ++ inet_ntoa a) = ':' :: ':' :: cStr (inet_ntoa a) := rfl
    rw [h, cStr_inet_ntoa]
  have hlen := length_to_string_le (byte_lt a 0)
  obtain ⟨rest, hrest⟩ : ∃ rest, inet_ntoa a = to_string (byte a 0) ++ '.' :: rest :=
    ⟨_, inet_ntoa_eq a⟩
  have hend : ∃ t, pton6From (to_string (byte a 0) ++ '.' :: rest)
      ⟨[], some 0, inet_ntoa a, 0, 0⟩ = some t ∧ t.bytes = [] ++ bytes a ∧
        t.colonp = some 0 ∧ t.xdigits = 0 :=
    pton6From_dot isDigit_of_mem_to_string (by dsimp only; omega) (by simp) (pton4_inet_ntoa a)
  rw [← hrest] at hend
  obtain ⟨t, ht, hbytes, hcolonp, hxdigits⟩ := hend
  have hfinish : finish t = some (List.replicate 12 0 ++ bytes a) := by
    simp [finish, hbytes, hcolonp, hxdigits, bytes]
  rw [inet_pton6_colon hcStr rfl, pton6From_zeros, List.length_nil, ht, Option.bind_some, hfinish]

lemma read_encapsulated (hwords : ∀ j, words j < 65536) (hfour : encapsulated words = true) :
    inet_pton6 (format words) = some (pairs words 0 8) := by
  have hlast : pairs words 0 8 = pairs words 0 6 ++ bytes (lastFour words) := by
    rw [bytes_lastFour hwords, ← pairs_append words 0 6 2]
    rfl
  rcases format_encapsulated hfour with ⟨htext, hzero⟩ | ⟨htext, hzero, hones⟩
  · rw [htext, inet_pton6_compatible, hlast, pairs_zero fun j _ hj => hzero j (by omega)]
  · have hfirst : pairs words 0 6 = List.replicate 10 0 ++ [0xff, 0xff] := by
      rw [← pairs_append words 0 5 1, pairs_zero fun j _ hj => hzero j (by omega)]
      simp [pairs, pair, hones]
    rw [htext, inet_pton6_mapped, hlast, hfirst]

/-- **What is written is read back.** -/
theorem inet_pton6_format (hwords : ∀ j, words j < 65536) :
    inet_pton6 (format words) = some (pairs words 0 8) := by
  cases hfour : encapsulated words with
  | true => exact read_encapsulated hwords hfour
  | false =>
    cases hbest : best words with
    | none => exact read_none hwords hbest
    | some r =>
      rcases Nat.eq_zero_or_pos r.base with hbase | hbase
      · exact read_front hwords hbest hbase hfour
      · exact read_some hwords hbest hbase

lemma octet_lt (src : Fin 16 → BitVec 8) (k : ℕ) : octet src k < 256 := by
  unfold octet
  rw [List.getD_eq_getElem?_getD, List.getElem?_map]
  cases (List.ofFn src)[k]? with
  | none => decide
  | some byte => exact byte.isLt

lemma word_lt (src : Fin 16 → BitVec 8) (i : ℕ) : word src i < 65536 := by
  have h := octet_lt src (2 * i)
  have h' := octet_lt src (2 * i + 1)
  unfold word
  omega

lemma pairs_word (src : Fin 16 → BitVec 8) :
    pairs (word src) 0 8 = List.ofFn fun i => (src i).toNat := by
  have hpair : ∀ i, pair (word src i) = [octet src (2 * i), octet src (2 * i + 1)] := by
    intro i
    have h' := octet_lt src (2 * i + 1)
    rw [pair, word, Nat.mul_add_div (by decide), Nat.div_eq_of_lt h', Nat.mul_add_mod,
      Nat.mod_eq_of_lt h', Nat.add_zero]
  simp only [pairs, hpair]
  rfl

/-- **The round trip of an address.** -/
theorem inet_pton6_inet_ntop6 (src : Fin 16 → BitVec 8) :
    inet_pton6 (inet_ntop6 src) = some (List.ofFn fun i => (src i).toNat) := by
  rw [inet_ntop6, inet_pton6_format (word_lt src), pairs_word]

end Hbm.InetNtop
