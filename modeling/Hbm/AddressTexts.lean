import Hbm.InetNtop
import Hbm.MappedAddress
import Hbm.NetadapterList

/-!
The addresses that `NetadapterList::update` stores: their texts, which `Ipv6Address` judges, and
their prefixes.

`isLinkLocalAddress` looks for `fe80::` in front of the text and `getIpv4MappedAddress` for
`::ffff:`. Which addresses these are depends on how `inet_ntop` writes them.
-/

namespace Hbm.AddressTexts

open Hbm.Strtoul Hbm.Dotted Hbm.Inet Hbm.InetPton Hbm.InetNtop Hbm.LongestRun
open Hbm.AddressCheck Hbm.HardwareInfo Hbm.MappedAddress Hbm.NetadapterList

def ipv6LinkLocalNet : List Char := "fe80::".toList

def isLinkLocalAddress (address : List Char) : Bool :=
  if inet_pton6 address = none then false
  else
    let addressPrefix := (address.take ipv6LinkLocalNet.length).map Char.toLower
    if addressPrefix ≠ ipv6LinkLocalNet then false
    else true

/-! ### What is accepted -/

variable {c d : Char} {src rest : List Char} {s t : State} {k : ℕ}

/-- Only the upper case letters change. -/
lemma toLower_eq (c : Char) :
    c.toLower = c ∨ 65 ≤ c.toNat ∧ c.toNat ≤ 90 ∧ c.toLower.toNat = c.toNat + 32 := by
  unfold Char.toLower
  split_ifs with hupper
  · right
    have hge : 65 ≤ c.val.toNat := UInt32.le_iff_toNat_le.mp hupper.1
    have hle : c.val.toNat ≤ 90 := UInt32.le_iff_toNat_le.mp hupper.2
    have hval : (c.val + 32).toNat = c.val.toNat + 32 := by
      rw [UInt32.toNat_add]
      exact Nat.mod_eq_of_lt (by simp only [UInt32.reduceToNat]; omega)
    exact ⟨hge, hle, hval⟩
  · exact .inl rfl

lemma eq_of_toLower (h : c.toLower = d) (hd : d.toNat < 97) : c = d := by
  rcases toLower_eq c with heq | hupper
  · rw [← h, heq]
  · rw [h] at hupper
    omega

lemma digit_toLower (c : Char) : digit c.toLower = digit c := by
  rcases toLower_eq c with heq | ⟨hge, hle, hlower⟩
  · rw [heq]
  · have hall : ∀ n < 91, 65 ≤ n → digit (Char.ofNat (n + 32)) = digit (Char.ofNat n) := by decide
    have hn := hall c.toNat (by omega) hge
    rwa [← hlower, Char.ofNat_toNat, Char.ofNat_toNat] at hn

lemma cStr_cons (hc : c.toNat ≠ 0) : cStr (c :: rest) = c :: cStr rest := by
  simp [cStr, hc]

lemma toNat_ne_zero_of_digit (hc : digit c < 16) : c.toNat ≠ 0 := by
  intro h0
  have hc0 : c = Char.ofNat 0 := Char.toNat_inj.mp h0
  exact absurd (hc0 ▸ hc) (by decide)

lemma length_pton4From {octets l : List ℕ} {o : Option ℕ} (h : pton4From src octets o = some l) :
    l.length = 4 := by
  induction src generalizing octets o with
  | nil =>
    cases o with
    | none => cases h
    | some octet =>
      simp only [pton4From, Option.ite_none_right_eq_some, Option.some.injEq] at h
      rw [← h.2, List.length_append, h.1]
      rfl
  | cons ch src ih =>
    cases o with
    | none =>
      simp only [pton4From, Option.ite_none_right_eq_some] at h
      exact ih h.2
    | some octet =>
      simp only [pton4From] at h
      split_ifs at h
      · exact ih h
      · exact ih h

/-- Bytes are only added, two or four of them, and never more than sixteen in all. -/
lemma pton6From_keeps (h : pton6From src s = some t)
    (hlen : s.bytes.length ≤ 16 ∧ s.bytes.length % 2 = 0) (hcolonp : s.colonp = some k) :
    s.bytes <+: t.bytes ∧ (t.bytes.length ≤ 16 ∧ t.bytes.length % 2 = 0) ∧ t.colonp = some k := by
  induction src generalizing s with
  | nil =>
    obtain rfl := Option.some.inj h
    exact ⟨List.prefix_rfl, hlen, hcolonp⟩
  | cons ch src ih =>
    simp only [pton6From] at h
    split_ifs at h with hdigit hfour hcolon hnone hsome hroom hdot
    · have hkeeps := ih h hlen hcolonp
      exact hkeeps
    · rw [hcolonp] at hsome
      exact absurd rfl hsome
    · obtain ⟨hbegins, hrest⟩ := ih h (by simp; omega) hcolonp
      exact ⟨(List.prefix_append _ _).trans hbegins, hrest⟩
    · obtain ⟨octets, hoctets, rfl⟩ := Option.map_eq_some_iff.mp h
      have hfour := length_pton4From hoctets
      exact ⟨List.prefix_append _ _, by simp; omega, hcolonp⟩

lemma zeros_behind {bs : List ℕ} (hfirst : [0xfe, 0x80] <+: bs) (hlen : bs.length < 16)
    (heven : bs.length % 2 = 0) :
    ∃ rest, bs.take 2 ++ List.replicate (16 - bs.length) 0 ++ bs.drop 2 =
      [0xfe, 0x80, 0, 0] ++ rest ∧ rest.length = 12 := by
  obtain ⟨tail, rfl⟩ := hfirst
  simp only [List.length_append, List.length_cons, List.length_nil] at hlen heven
  refine ⟨List.replicate (12 - tail.length) 0 ++ tail, ?_, ?_⟩
  · have hzeros : 16 - ([0xfe, 0x80] ++ tail).length = 2 + (12 - tail.length) := by
      simp only [List.length_append, List.length_cons, List.length_nil]
      omega
    rw [hzeros, List.replicate_add]
    simp
  · simp only [List.length_append, List.length_replicate]
    omega

/-- What is behind `fe80::` is put behind the zeros. -/
lemma finish_linkLocal {bs : List ℕ} (h : finish t = some bs) (hfirst : [0xfe, 0x80] <+: t.bytes)
    (hlen : t.bytes.length ≤ 16 ∧ t.bytes.length % 2 = 0) (hcolonp : t.colonp = some 2) :
    ∃ rest, bs = [0xfe, 0x80, 0, 0] ++ rest ∧ rest.length = 12 := by
  have hclose : ∀ all : List ℕ, [0xfe, 0x80] <+: all → all.length ≤ 16 → all.length % 2 = 0 →
      (if all.length = 16 then none
        else some (all.take 2 ++ List.replicate (16 - all.length) 0 ++ all.drop 2)) = some bs →
      ∃ rest, bs = [0xfe, 0x80, 0, 0] ++ rest ∧ rest.length = 12 := by
    intro all hfirst hle heven h
    split_ifs at h with hfull
    obtain ⟨rest, heq, hrest⟩ := zeros_behind hfirst (by omega) heven
    exact ⟨rest, (Option.some.inj h).symm.trans heq, hrest⟩
  rw [finish, hcolonp] at h
  split_ifs at h with hroom hdigits
  · have hle : t.bytes.length + 2 ≤ 16 := Nat.le_of_not_lt fun hlt => hroom ⟨hdigits, hlt⟩
    refine hclose _ (hfirst.trans (List.prefix_append _ _)) (by simpa using hle) ?_ h
    rw [List.length_append]
    exact (Nat.add_mod_right _ 2).trans hlen.2
  · exact hclose _ hfirst hlen.1 hlen.2 h

/-- **A link-local address.** Each text that is accepted denotes an address of the net, with zeros
behind its first two bytes. -/
theorem linkLocal_sound {address : List Char} (h : isLinkLocalAddress address = true) :
    ∃ rest, inet_pton6 address = some ([0xfe, 0x80, 0, 0] ++ rest) ∧ rest.length = 12 := by
  unfold isLinkLocalAddress at h
  by_cases hnone : inet_pton6 address = none
  · rw [if_pos hnone] at h
    cases h
  rw [if_neg hnone] at h
  dsimp only at h
  split_ifs at h with hfirst
  have hmap : (address.take 6).map Char.toLower = "fe80::".toList := not_not.mp hfirst
  obtain ⟨c₁, l₁, h₁, hc₁, hmap⟩ := List.map_eq_cons_iff.mp hmap
  obtain ⟨c₂, l₂, rfl, hc₂, hmap⟩ := List.map_eq_cons_iff.mp hmap
  obtain ⟨c₃, l₃, rfl, hc₃, hmap⟩ := List.map_eq_cons_iff.mp hmap
  obtain ⟨c₄, l₄, rfl, hc₄, hmap⟩ := List.map_eq_cons_iff.mp hmap
  obtain ⟨c₅, l₅, rfl, hc₅, hmap⟩ := List.map_eq_cons_iff.mp hmap
  obtain ⟨c₆, l₆, rfl, hc₆, hmap⟩ := List.map_eq_cons_iff.mp hmap
  obtain rfl := List.map_eq_nil_iff.mp hmap
  have hsplit := List.take_append_drop 6 address
  rw [h₁] at hsplit
  have hf : digit c₁ = 15 := by rw [← digit_toLower, hc₁]; decide
  have he : digit c₂ = 14 := by rw [← digit_toLower, hc₂]; decide
  have h8 : digit c₃ = 8 := by rw [← digit_toLower, hc₃]; decide
  have h0 : digit c₄ = 0 := by rw [← digit_toLower, hc₄]; decide
  obtain rfl : c₅ = ':' := eq_of_toLower hc₅ (by decide)
  obtain rfl : c₆ = ':' := eq_of_toLower hc₆ (by decide)
  set rest := cStr (address.drop 6)
  have hcStr : cStr address = c₁ :: c₂ :: c₃ :: c₄ :: ':' :: ':' :: rest := by
    rw [← hsplit]
    simp only [List.cons_append, List.nil_append]
    rw [cStr_cons (toNat_ne_zero_of_digit (by omega)),
      cStr_cons (toNat_ne_zero_of_digit (by omega)),
      cStr_cons (toNat_ne_zero_of_digit (by omega)),
      cStr_cons (toNat_ne_zero_of_digit (by omega)),
      cStr_cons (by decide), cStr_cons (by decide)]
  obtain ⟨bs, hbs⟩ := Option.ne_none_iff_exists'.mp hnone
  have hread : (pton6From rest ⟨[0xfe, 0x80], some 2, rest, 0, 0⟩).bind finish = some bs := by
    rw [← hbs, inet_pton6_digit hcStr (by omega)]
    simp [pton6From, hf, he, h8, h0, digit_colon]
  obtain ⟨t, ht, hfinish⟩ := Option.bind_eq_some_iff.mp hread
  have hstart : ([0xfe, 0x80] : List ℕ).length ≤ 16 ∧ ([0xfe, 0x80] : List ℕ).length % 2 = 0 := by
    decide
  obtain ⟨hkept, hlen, hcolonp⟩ := pton6From_keeps ht hstart rfl
  obtain ⟨tail, htail, hlength⟩ := finish_linkLocal hfinish hkept hlen hcolonp
  exact ⟨tail, by rw [hbs, htail], hlength⟩

theorem linkLocal_sound_upper : ∃ rest,
    inet_pton6 "FE80::40ab:a528:ada6:3da5".toList = some ([0xfe, 0x80, 0, 0] ++ rest) ∧
      rest.length = 12 :=
  linkLocal_sound (by decide +kernel)

/-! ### What is written -/

variable {words : ℕ → ℕ}

lemma not_mem_hex (n : ℕ) : ':' ∉ hex n := fun h => digit_colon (digit_lt_of_mem_hex ':' h)

lemma hex_toLower (n : ℕ) : (hex n).map Char.toLower = hex n := by
  have hlower : ∀ d < 16, (Nat.digitChar d).toLower = Nat.digitChar d := by decide
  conv_rhs => rw [← List.map_id (hex n)]
  refine List.map_congr_left fun c hc => ?_
  obtain ⟨d, hd, rfl⟩ := exists_digitChar c hc
  exact hlower d hd

/-- A text begins with the zeros or with a word; then the zeros are next if the run begins there. -/
lemma format_cases (words : ℕ → ℕ) :
    (∃ x, format words = ':' :: x) ∧ (¬ ∃ len, best words = some ⟨1, len⟩) ∨
    ∃ x, format words = hex (words 0) ++ ':' :: x ∧
      (x.head? = some ':' ↔ ∃ len, best words = some ⟨1, len⟩) := by
  have hdigit : ∀ y, (hex (words 1) ++ y).head? ≠ some ':' := by
    intro y hy
    rw [List.head?_append_of_ne_nil _ (hex_ne_nil _)] at hy
    exact not_mem_hex _ (List.mem_of_head? hy)
  cases hbest : best words with
  | none =>
    refine .inr ⟨_, format_none hbest, iff_of_false (hdigit _) ?_⟩
    rintro ⟨len, h⟩
    cases h
  | some r =>
    rcases Nat.eq_zero_or_pos r.base with hbase | hbase
    · refine .inl ⟨?_, ?_⟩
      · cases hfour : encapsulated words with
        | true =>
          rcases format_encapsulated hfour with ⟨htext, -⟩ | ⟨htext, -⟩
          · exact ⟨_, htext⟩
          · exact ⟨_, htext⟩
        | false => exact ⟨_, format_front hbest hbase hfour⟩
      · rintro ⟨len, h⟩
        obtain rfl := Option.some.inj h
        cases hbase
    · refine .inr ?_
      rw [format_some hbest hbase]
      obtain ⟨src, hsrc⟩ := exists_colon hbest
      cases hgroups : r.base - 1 with
      | zero =>
        have hone : r.base = 1 := by omega
        refine ⟨_, rfl, iff_of_true ?_ ⟨r.len, ?_⟩⟩
        · rw [hsrc]
          rfl
        · rw [← hone]
      | succ n =>
        refine ⟨_, by rw [groups_succ, List.cons_append, List.append_assoc],
          iff_of_false (hdigit _) ?_⟩
        rintro ⟨len, h⟩
        obtain rfl := Option.some.inj h
        dsimp only at hgroups
        omega

/-- Which addresses are found in the form in which they are written. -/
lemma isLinkLocalAddress_format (hwords : ∀ j, words j < 65536) :
    isLinkLocalAddress (format words) = true ↔
      words 0 = 0xfe80 ∧ ∃ len, best words = some ⟨1, len⟩ := by
  have hread : inet_pton6 (format words) ≠ none := by
    rw [inet_pton6_format hwords]
    exact Option.some_ne_none _
  have hiff : isLinkLocalAddress (format words) = true ↔
      "fe80".toList ++ ':' :: [':'] <+: (format words).map Char.toLower := by
    unfold isLinkLocalAddress
    rw [if_neg hread, List.prefix_iff_eq_take, ← List.map_take]
    simp [ipv6LinkLocalNet, eq_comm]
  have hfe80 : hex 0xfe80 = "fe80".toList := by decide
  rw [hiff]
  rcases format_cases words with ⟨⟨x, hx⟩, hbest⟩ | ⟨x, hx, hzeros⟩
  · refine iff_of_false (fun h => ?_) fun h => hbest h.2
    rw [hx] at h
    exact absurd (List.cons_prefix_cons.mp h).1 (by decide)
  · rw [hx, List.map_append, hex_toLower, List.map_cons, ← hzeros]
    constructor
    · rintro ⟨y, hy⟩
      have hpart : ∀ l r : List Char, ':' ∉ l → (l ++ ':' :: r).takeWhile (· ≠ ':') = l :=
        fun l r hl => (span_append
          (fun c hc => decide_eq_true (ne_of_mem_of_not_mem hc hl)) (by simp)).1
      have hcolon : ':'.toLower = ':' := by decide
      rw [List.append_assoc, List.cons_append, hcolon] at hy
      have hword := congrArg (List.takeWhile (· ≠ ':')) hy
      rw [hpart _ _ (by decide), hpart _ _ (not_mem_hex _)] at hword
      rw [← hword] at hy
      have hrest := (List.cons.inj (List.append_cancel_left hy)).2
      refine ⟨(hex_injective (hfe80.trans hword)).symm, ?_⟩
      cases x with
      | nil => cases hrest
      | cons c x =>
        have hc := (List.cons.inj hrest).1
        rw [eq_of_toLower hc.symm (by decide)]
        rfl
    · rintro ⟨hword, hcolon⟩
      obtain ⟨x, rfl⟩ := List.head?_eq_some_iff.mp hcolon
      rw [hword, hfe80]
      exact ⟨x.map Char.toLower, rfl⟩

/-- Three words of zeros behind the first word are more than any zeros behind them. -/
lemma best_linkLocal (hfirst : words 0 ≠ 0) (hzero : ∀ i, 1 ≤ i → i < 4 → words i = 0) :
    ∃ len, best words = some ⟨1, len⟩ := by
  obtain ⟨hall, hbefore⟩ := longest_best (p := (words · = 0)) 8
  obtain ⟨b, hb, hprecedes⟩ := hbefore ⟨1, 3⟩ ⟨by decide, by decide, hzero⟩
  have hrun := hall b hb
  have hpos := hrun.pos
  have hle := hrun.le
  have hbase : b.base ≠ 0 := fun h0 => hfirst (hrun.all 0 (by omega) (by omega))
  have hone : b.base = 1 := by
    unfold Precedes at hprecedes
    dsimp only at hprecedes
    by_contra hne
    have hlonger : IsRun (words · = 0) 8 ⟨1, b.base - 1 + b.len⟩ := by
      refine ⟨by dsimp only; omega, by dsimp only; omega, fun i hi hi' => ?_⟩
      dsimp only at hi hi'
      rcases Nat.lt_or_ge i 4 with hlt | hge
      · exact hzero i hi hlt
      · exact hrun.all i (by omega) (by omega)
    obtain ⟨b', hb', hprecedes'⟩ := hbefore _ hlonger
    obtain rfl := Option.some.inj (hb.symm.trans hb')
    unfold Precedes at hprecedes'
    dsimp only at hprecedes'
    omega
  have hlen : 2 ≤ b.len := by
    unfold Precedes at hprecedes
    dsimp only at hprecedes
    omega
  refine ⟨b.len, ?_⟩
  rw [best, hb, Option.filter_some, if_pos (decide_eq_true hlen), ← hone]

/-- **A link-local address that is written** is found if its first word is that of the net and the
zeros that are left out come next. They do for each address of `fe80::/64`. -/
theorem linkLocal_written (src : Fin 16 → BitVec 8) :
    (isLinkLocalAddress (inet_ntop6 src) = true ↔
      word src 0 = 0xfe80 ∧ ∃ len, best (word src) = some ⟨1, len⟩) ∧
    (word src 0 = 0xfe80 ∧ (∀ i, 1 ≤ i → i < 4 → word src i = 0) →
      isLinkLocalAddress (inet_ntop6 src) = true) := by
  have hiff := isLinkLocalAddress_format (word_lt src)
  refine ⟨hiff, fun ⟨hfirst, hzero⟩ => hiff.mpr ⟨hfirst, best_linkLocal ?_ hzero⟩⟩
  rw [hfirst]
  decide

/-! ### IPv4-mapped addresses -/

/-- Zeros, ones and an IPv4 address. -/
def Mapped (words : ℕ → ℕ) : Prop := (∀ i < 5, words i = 0) ∧ words 5 = 0xffff

instance (words : ℕ → ℕ) : Decidable (Mapped words) := inferInstanceAs (Decidable (_ ∧ _))

lemma encapsulated_of_mapped (h : Mapped words) : encapsulated words = true := by
  obtain ⟨hzero, hones⟩ := h
  obtain ⟨hall, hbefore⟩ := longest_best (p := (words · = 0)) 8
  obtain ⟨b, hb, hprecedes⟩ := hbefore ⟨0, 5⟩
    ⟨by decide, by decide, fun i _ hi => hzero i (by simpa using hi)⟩
  have hrun := hall b hb
  have hle := hrun.le
  have hout : ¬ (b.base ≤ 5 ∧ 5 < b.base + b.len) := by
    rintro ⟨hge, hlt⟩
    exact absurd ((hrun.all 5 hge hlt).symm.trans hones) (by decide)
  unfold Precedes at hprecedes
  dsimp only at hprecedes
  have hbest : best words = some b := by
    rw [best, hb, Option.filter_some, if_pos (decide_eq_true (by omega))]
  rw [encapsulated, hbest, Option.any_some, decide_eq_true_eq]
  exact ⟨by omega, .inr ⟨by omega, hones⟩⟩

/-- There are dots in an IPv4 address only. -/
lemma not_mem_formatFrom (hfour : encapsulated words = false) (n i : ℕ) :
    '.' ∉ formatFrom words n i := by
  have hdot : ¬ digit '.' < 16 := by decide
  have hcolon : ∀ P : Prop, [Decidable P] → '.' ∉ (if P then [':'] else []) := by
    intro P _ h
    split_ifs at h
    · exact absurd (List.mem_singleton.mp h) (by decide)
    · cases h
  induction n generalizing i with
  | zero => exact hcolon _
  | succ n ih =>
    rw [formatFrom]
    by_cases hin : inside words i
    · rw [if_pos hin, List.mem_append]
      exact not_or.mpr ⟨hcolon _, ih _⟩
    · have hno : ¬ (i = 6 ∧ encapsulated words = true) := by simp [hfour]
      rw [if_neg hin, if_neg hno, List.mem_append, List.mem_append]
      exact not_or.mpr ⟨hcolon _, not_or.mpr ⟨fun h => hdot (digit_lt_of_mem_hex _ h), ih _⟩⟩

lemma not_prefix_compatible (a : BitVec 32) : ¬ mappedPrefix <+: "::".toList ++ inet_ntoa a := by
  intro h
  have hrest : "ffff:".toList <+: inet_ntoa a := (List.prefix_append_right_inj "::".toList).mp h
  have hf : 'f' ∈ inet_ntoa a := hrest.subset (by decide)
  rcases mem_inet_ntoa _ hf with hdigit | hdot
  · exact absurd hdigit (by decide)
  · exact absurd hdot (by decide)

/-- **An IPv4-mapped address that is written** gives its last four bytes, and no other address that
is written gives anything. -/
theorem mapped_written (src : Fin 16 → BitVec 8) : getIpv4MappedAddress (inet_ntop6 src) =
    if Mapped (word src) then inet_ntoa (lastFour (word src)) else [] := by
  rw [inet_ntop6]
  generalize word src = words
  cases hfour : encapsulated words with
  | true =>
    rcases format_encapsulated hfour with ⟨htext, hzero⟩ | ⟨htext, hmapped⟩
    · have hnot : ¬ Mapped words :=
        fun h => absurd ((hzero 5 (by decide)).symm.trans h.2) (by decide)
      rw [if_neg hnot, htext, getIpv4MappedAddress_eq_nil (not_prefix_compatible _)]
    · have hmapped : Mapped words := hmapped
      rw [if_pos hmapped, htext, getIpv4MappedAddress_inet_ntoa]
  | false =>
    have hnot : ¬ Mapped words := fun h => by simp [encapsulated_of_mapped h] at hfour
    rw [if_neg hnot]
    by_cases hbegins : mappedPrefix <+: format words
    · obtain ⟨t, ht⟩ := hbegins
      have hdots : t.count '.' = 0 := List.count_eq_zero.mpr fun h =>
        not_mem_formatFrom hfour 8 0 (by rw [← format, ← ht]; exact List.mem_append_right _ h)
      rw [← ht, getIpv4MappedAddress_append, if_neg fun h => by simp [hdots] at h]
    · exact getIpv4MappedAddress_eq_nil hbegins

/-! ### The addresses of an adapter -/

variable {sys : System} {interfaces : List Ifaddrs} {m : Adapters} {ad : Netadapter}

/-- The IPv4 addresses with their netmasks. -/
def inetOf (addresses : List Sockaddr) : List (BitVec 32 × BitVec 32) :=
  addresses.filterMap fun
    | .inet sin_addr netmask => some (sin_addr, netmask)
    | _ => none

def inet6Of (addresses : List Sockaddr) : List (Fin 16 → BitVec 8) :=
  addresses.filterMap fun
    | .inet6 sin6_addr _ => some sin6_addr
    | _ => none

lemma perm_inetOf (addresses : List Sockaddr) :
    ((nonApipa addresses).reverse ++ apipa addresses).Perm
      ((inetOf addresses).map fun p => ipv4Of p.1 p.2) := by
  refine ((List.reverse_perm _).append_right _).trans ?_
  induction addresses with
  | nil => exact .nil
  | cons a addresses ih =>
    cases a with
    | inet sin_addr netmask =>
      by_cases h : InApipaNet sin_addr
      · simpa [nonApipa, apipa, inetOf, h] using List.perm_middle.trans (ih.cons _)
      · simpa [nonApipa, apipa, inetOf, h] using ih
    | inet6 sin6_addr netmask => exact ih
    | other family => exact ih

lemma read_ipv6 (hsys : sys.inet_ntop6 = inet_ntop6) (addresses : List Sockaddr) :
    ((ipv6 sys addresses).map fun x => inet_pton6 x.address) =
      (inet6Of addresses).map fun src => some (List.ofFn fun i => (src i).toNat) := by
  have hread : ∀ src, inet_pton6 (sys.inet_ntop6 src) =
      some (List.ofFn fun i => (src i).toNat) := fun src => by
    rw [hsys, inet_pton6_inet_ntop6]
  induction addresses with
  | nil => rfl
  | cons a addresses ih =>
    cases a with
    | inet sin_addr netmask => exact ih
    | inet6 sin6_addr netmask => exact congrArg₂ List.cons (hread sin6_addr) ih
    | other family => exact ih

/-- **No address is lost as a text.** From the texts of an adapter come the IPv4 addresses of its
interface with their netmasks, each as often as it was there, and the IPv6 addresses in their
order. -/
theorem addresses_read_back (hsys : sys.inet_ntop6 = inet_ntop6)
    (hinj : IndexInjective sys interfaces) (h : (update sys m (some interfaces)).find k = some ad) :
    (ad.m_ipv4Addresses.map fun x => (inet_aton x.address, inet_aton x.netmask)).Perm
      ((inetOf (addressesOf sys interfaces ad.m_name)).map fun p => (some p.1, some p.2)) ∧
    (ad.m_ipv6Addresses.map fun x => inet_pton6 x.address) =
      (inet6Of (addressesOf sys interfaces ad.m_name)).map fun src =>
        some (List.ofFn fun i => (src i).toNat) := by
  obtain ⟨i, -, -, -, rfl⟩ := (find_update m hinj k ad).mp h
  refine ⟨?_, ?_⟩
  · have hperm := (perm_inetOf (addressesOf sys interfaces i.ifa_name)).map
      fun x => (inet_aton x.address, inet_aton x.netmask)
    simpa [adapterOf, ipv4Of, Function.comp_def, inet_aton_inet_ntoa] using hperm
  · exact read_ipv6 hsys _

/-- `fe80::1` -/
def firstOfNet : Fin 16 → BitVec 8 := fun i =>
  if i.val = 0 then 0xfe else if i.val = 1 then 0x80 else if i.val = 15 then 1 else 0

def bothFamilies : List Ifaddrs :=
  sampleInterfaces ++ [⟨"eth0".toList, IFF_MULTICAST, some (.inet6 firstOfNet fun _ => 0xff)⟩]

theorem addresses_read_back_bothFamilies : ∃ ad : Netadapter,
    (ad.m_ipv4Addresses.map fun x => (inet_aton x.address, inet_aton x.netmask)).Perm
      [(some 0xa9fe0001, some 0xffff0000), (some 0xac130102, some 0xffffff00)] ∧
    (ad.m_ipv6Addresses.map fun x => inet_pton6 x.address) =
      [some (List.ofFn fun i => (firstOfNet i).toNat)] := by
  have hinj : IndexInjective ⟨List.length, sampleQuery, inet_ntop6⟩ bothFamilies := by
    intro i hi j hj _
    simp only [bothFamilies, sampleInterfaces, List.cons_append, List.nil_append, List.mem_cons,
      List.not_mem_nil, or_false] at hi hj
    rcases hi with rfl | rfl | rfl <;> rcases hj with rfl | rfl | rfl <;> rfl
  have hfind := (find_update .empty hinj 4 _).mpr
    ⟨_, .head _, by decide +kernel, rfl, rfl⟩
  exact ⟨_, addresses_read_back rfl hinj hfind⟩

/-! ### Prefixes -/

variable {n : ℕ}

/-- The netmask is `n` ones and zeros behind them. -/
def LeadingOnes (netmask : Fin 16 → BitVec 8) (n : ℕ) : Prop :=
  ∀ i : Fin 16, ∀ j < 8, (netmask i).getMsbD j = decide (8 * i.val + j < n)

instance (netmask : Fin 16 → BitVec 8) (n : ℕ) : Decidable (LeadingOnes netmask n) :=
  inferInstanceAs
    (Decidable (∀ i : Fin 16, ∀ j < 8, (netmask i).getMsbD j = decide (8 * i.val + j < n)))

/-- The first byte of such a netmask. -/
lemma bitCount_leading {byte : BitVec 8} (h : ∀ j < 8, byte.getMsbD j = decide (j < n)) :
    (byte = 0 ↔ n = 0) ∧ bitCount byte = min n 8 := by
  have hbits : ∀ k ≤ 8, ∀ j < 8, (255#8 <<< (8 - k)).getMsbD j = decide (j < k) := by decide
  have hcount : ∀ k ≤ 8, (255#8 <<< (8 - k) = 0 ↔ k = 0) ∧ bitCount (255#8 <<< (8 - k)) = k := by
    decide
  have hbyte : byte = 255#8 <<< (8 - min n 8) := by
    refine BitVec.eq_of_getMsbD_eq fun j hj => ?_
    rw [h j hj, hbits _ (Nat.min_le_right n 8) j hj]
    simp [hj]
  obtain ⟨hzero, hsum⟩ := hcount _ (Nat.min_le_right n 8)
  rw [hbyte, hzero]
  exact ⟨by omega, hsum⟩

/-- The loop ends at the first byte without ones; `n` counts from the first byte of the list. -/
lemma sum_bitCount {bs : List (BitVec 8)}
    (h : ∀ i byte, bs[i]? = some byte → ∀ j < 8, byte.getMsbD j = decide (8 * i + j < n)) :
    ((bs.takeWhile (· ≠ 0)).map bitCount).sum = min n (8 * bs.length) := by
  induction bs generalizing n with
  | nil => simp
  | cons byte bs ih =>
    have hfirst : ∀ j < 8, byte.getMsbD j = decide (j < n) := by simpa using h 0 byte rfl
    obtain ⟨hzero, hcount⟩ := bitCount_leading hfirst
    rw [List.takeWhile_cons]
    by_cases hn : n = 0
    · have hbyte : byte = 0 := hzero.mpr hn
      simp [hbyte, hn]
    · have hbyte : byte ≠ 0 := fun h0 => hn (hzero.mp h0)
      have hrest := ih (n := n - 8) fun i byte' hi j hj => by
        rw [h (i + 1) byte' hi j hj]
        congr 1
        exact propext ⟨fun hlt => by omega, fun hlt => by omega⟩
      rw [if_pos (decide_eq_true hbyte), List.map_cons, List.sum_cons, hrest, hcount,
        List.length_cons]
      omega

/-- **The prefix of an IPv6 address** is the number of ones in front of its netmask. -/
theorem prefixOf_leadingOnes {netmask : Fin 16 → BitVec 8} (hn : n ≤ 128)
    (h : LeadingOnes netmask n) : prefixOf netmask = n := by
  have hsum : (((List.ofFn netmask).takeWhile (· ≠ 0)).map bitCount).sum =
      min n (8 * (List.ofFn netmask).length) := sum_bitCount fun i byte hbyte j hj => by
    obtain ⟨hi, rfl⟩ := List.getElem?_eq_some_iff.mp hbyte
    rw [List.getElem_ofFn]
    exact h ⟨i, by simpa using hi⟩ j hj
  rw [prefixOf, hsum, List.length_ofFn]
  omega

theorem prefixOf_leadingOnes_sixty :
    prefixOf (fun i => if i.val < 7 then 0xff else if i.val = 7 then 0xf0 else 0) = 60 :=
  prefixOf_leadingOnes (by decide) (by decide)

end Hbm.AddressTexts
