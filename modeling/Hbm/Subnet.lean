import Hbm.Dotted
import Mathlib.Data.List.Forall2

/-!
`Ipv4Address::getSubnet`.

Address and netmask are split at the dots, and their parts are read in decimal, masked and written
again. A part that `std::stoul` does not read makes it throw.
-/

namespace Hbm.Subnet

open Hbm.Size Hbm.Split Hbm.Strtoul Hbm.Dotted

structure Ipv4Address where
  address : List Char
  netmask : List Char

/-- An `unsigned long` in an `unsigned int`. -/
def toUnsigned (n : ℕ) : ℕ := n % 2 ^ 32

/-- The turns of the loop for the parts that are left; behind them the last dot is removed. -/
def subnetLoop : List (List Char × List Char) → List Char → Except Exception (List Char)
  | [], subnet => .ok subnet.dropLast
  | (addressPart, netmaskPart) :: parts, subnet => do
    let addressByte := toUnsigned (← stoul addressPart 10)
    let netmaskByte := toUnsigned (← stoul netmaskPart 10)
    if 255 < addressByte ∨ 255 < netmaskByte then return []
    let subnetByte := addressByte &&& netmaskByte
    subnetLoop parts (subnet ++ (to_string subnetByte ++ ['.']))

/-- `split` throws what `substr` throws. -/
def getSubnet (self : Ipv4Address) : Except Exception (List Char) :=
  match splitChar self.address '.', splitChar self.netmask '.' with
  | some addressParts, some netmaskParts =>
    if addressParts.length ≠ 4 ∨ netmaskParts.length ≠ 4 then .ok []
    else subnetLoop (addressParts.zip netmaskParts) []
  | _, _ => .error .out_of_range

/-! ### The loop -/

/-- Both parts are read as a byte, and `b` is what they have in common. -/
def Joined (parts : List Char × List Char) (b : ℕ) : Prop :=
  ∃ n k, Reads parts.1 n ∧ Reads parts.2 k ∧ toUnsigned n ≤ 255 ∧ toUnsigned k ≤ 255 ∧
    b = toUnsigned n &&& toUnsigned k

/-- A part is too large, and there is none before it, or beside it, that cannot be read. -/
def Rejected : List (List Char × List Char) → Prop
  | [] => False
  | parts :: rest => ∃ n k, Reads parts.1 n ∧ Reads parts.2 k ∧
      (255 < toUnsigned n ∨ 255 < toUnsigned k ∨ Rejected rest)

variable {parts : List (List Char × List Char)} {s t subnet r : List Char} {n k : ℕ}

/-- One turn. -/
lemma subnetLoop_cons : subnetLoop ((s, t) :: parts) subnet = .ok r ↔
    ∃ n k, Reads s n ∧ Reads t k ∧
      if 255 < toUnsigned n ∨ 255 < toUnsigned k then r = []
      else subnetLoop parts
        (subnet ++ (to_string (toUnsigned n &&& toUnsigned k) ++ ['.'])) = .ok r := by
  simp only [← stoul_eq_ok_iff, subnetLoop]
  cases stoul s 10 with
  | error e => simp [bind, Except.bind]
  | ok n =>
    cases stoul t 10 with
    | error e => simp [bind, Except.bind]
    | ok k =>
      simp only [bind, Except.bind, Except.ok.injEq, exists_and_left, exists_eq_left']
      split <;> simp [pure, Except.pure, eq_comm]

/-- **What the loop returns.** -/
lemma subnetLoop_eq_ok_iff : subnetLoop parts subnet = .ok r ↔
    Rejected parts ∧ r = [] ∨ ∃ bs, List.Forall₂ Joined parts bs ∧
      r = (subnet ++ bs.flatMap fun b => to_string b ++ ['.']).dropLast := by
  induction parts generalizing subnet with
  | nil =>
    have hout : subnetLoop [] subnet = .ok r ↔ r = subnet.dropLast := by
      rw [subnetLoop, Except.ok.injEq, eq_comm]
    rw [hout]
    constructor
    · rintro rfl
      exact .inr ⟨[], .nil, by rw [List.flatMap_nil, List.append_nil]⟩
    · rintro (⟨hrej, -⟩ | ⟨bs, hbs, rfl⟩)
      · exact hrej.elim
      · cases hbs
        rw [List.flatMap_nil, List.append_nil]
  | cons p parts ih =>
    obtain ⟨s, t⟩ := p
    rw [subnetLoop_cons]
    constructor
    · rintro ⟨n, k, hn, hk, h⟩
      split at h
      · next hlarge =>
        exact .inl ⟨⟨n, k, hn, hk, by tauto⟩, h⟩
      · next hsmall =>
        rcases ih.mp h with ⟨hrej, rfl⟩ | ⟨bs, hbs, rfl⟩
        · exact .inl ⟨⟨n, k, hn, hk, .inr (.inr hrej)⟩, rfl⟩
        · refine .inr ⟨_ :: bs, .cons ⟨n, k, hn, hk, by omega, by omega, rfl⟩ hbs, ?_⟩
          simp only [List.flatMap_cons, List.append_assoc]
    · rintro (⟨⟨n, k, hn, hk, h⟩, rfl⟩ | ⟨bs, hbs, rfl⟩)
      · refine ⟨n, k, hn, hk, ?_⟩
        split
        · rfl
        · exact ih.mpr (.inl ⟨by tauto, rfl⟩)
      · rcases hbs with _ | ⟨⟨n, k, hn, hk, hn', hk', rfl⟩, hbs⟩
        refine ⟨n, k, hn, hk, ?_⟩
        rw [if_neg (by omega), ih]
        refine .inr ⟨_, hbs, ?_⟩
        simp only [List.flatMap_cons, List.append_assoc]

/-! ### The subnet -/

variable {self : Ipv4Address} {bs : List ℕ} {a m : BitVec 32}

/-- The parts of both texts, side by side. -/
def pairs (self : Ipv4Address) : List (List Char × List Char) :=
  (self.address.splitOn '.').zip (self.netmask.splitOn '.')

/-- Both texts have four parts. -/
def FourParts (self : Ipv4Address) : Prop :=
  (self.address.splitOn '.').length = 4 ∧ (self.netmask.splitOn '.').length = 4

lemma getSubnet_of_fourParts (haddress : Fits self.address) (hnetmask : Fits self.netmask)
    (h : FourParts self) : getSubnet self = subnetLoop (pairs self) [] := by
  have hparts : ¬ ((self.address.splitOn '.').length ≠ 4 ∨
      (self.netmask.splitOn '.').length ≠ 4) := by
    rw [h.1, h.2]
    decide
  simp only [getSubnet, splitChar_eq haddress, splitChar_eq hnetmask, if_neg hparts, pairs]

lemma getSubnet_of_not_fourParts (haddress : Fits self.address) (hnetmask : Fits self.netmask)
    (h : ¬ FourParts self) : getSubnet self = .ok [] := by
  have hparts : (self.address.splitOn '.').length ≠ 4 ∨
      (self.netmask.splitOn '.').length ≠ 4 := by
    rwa [FourParts, not_and_or] at h
  simp only [getSubnet, splitChar_eq haddress, splitChar_eq hnetmask, if_pos hparts]

/-- Without the last dot the bytes are joined by dots. -/
lemma dropLast_flatMap (hbs : bs ≠ []) :
    (bs.flatMap fun b => to_string b ++ ['.']).dropLast =
      ['.'].intercalate (bs.map to_string) := by
  induction bs with
  | nil => exact absurd rfl hbs
  | cons b bs ih =>
    cases bs with
    | nil => simp [List.intercalate_singleton]
    | cons c bs =>
      have hne : ((c :: bs).flatMap fun b => to_string b ++ ['.']) ≠ [] := by simp
      have hmap : (c :: bs).map to_string ≠ [] := List.cons_ne_nil _ _
      rw [List.flatMap_cons, List.dropLast_append_of_ne_nil hne, ih (List.cons_ne_nil _ _)]
      exact (List.intercalate_cons_of_ne_nil hmap).symm

lemma length_pairs (h : FourParts self) : (pairs self).length = 4 := by
  rw [pairs, List.length_zip, h.1, h.2, Nat.min_self]

/-- **What `getSubnet` returns** for four parts each. -/
lemma getSubnet_eq_ok_iff (haddress : Fits self.address) (hnetmask : Fits self.netmask)
    (h : FourParts self) : getSubnet self = .ok r ↔
      Rejected (pairs self) ∧ r = [] ∨ ∃ bs, List.Forall₂ Joined (pairs self) bs ∧
        r = ['.'].intercalate (bs.map to_string) := by
  rw [getSubnet_of_fourParts haddress hnetmask h, subnetLoop_eq_ok_iff]
  refine or_congr_right (exists_congr fun bs => and_congr_right fun hbs => ?_)
  have hne : bs ≠ [] := by
    rintro rfl
    have hlen := hbs.length_eq
    rw [length_pairs h] at hlen
    cases hlen
  rw [List.nil_append, dropLast_flatMap hne]

/-! ### Canonical addresses -/

lemma toUnsigned_eq (h : n < 256) : toUnsigned n = n := by
  unfold toUnsigned
  omega

lemma joined_bytes (hn : n < 256) (hk : k < 256) :
    Joined (to_string n, to_string k) (n &&& k) := by
  have hsize : 256 < sizeMod := by decide
  refine ⟨n, k, reads_to_string (by omega), reads_to_string (by omega), ?_⟩
  rw [toUnsigned_eq hn, toUnsigned_eq hk]
  exact ⟨by omega, by omega, rfl⟩

lemma forall₂_bytes (a m : BitVec 32) :
    List.Forall₂ Joined (pairs ⟨inet_ntoa a, inet_ntoa m⟩) (bytes (a &&& m)) := by
  simp only [pairs, splitOn_inet_ntoa, bytes, List.range_succ, List.range_zero, List.nil_append,
    List.cons_append, List.map_cons, List.map_nil, List.zip_cons_cons, List.zip_nil_left,
    byte_and, List.forall₂_cons, List.Forall₂.nil, and_true]
  exact ⟨joined_bytes (byte_lt a 0) (byte_lt m 0), joined_bytes (byte_lt a 1) (byte_lt m 1),
    joined_bytes (byte_lt a 2) (byte_lt m 2), joined_bytes (byte_lt a 3) (byte_lt m 3)⟩

lemma fourParts_inet_ntoa (a m : BitVec 32) : FourParts ⟨inet_ntoa a, inet_ntoa m⟩ := by
  simp [FourParts, splitOn_inet_ntoa, bytes]

lemma getSubnet_inet_ntoa (a m : BitVec 32) :
    getSubnet ⟨inet_ntoa a, inet_ntoa m⟩ = .ok (inet_ntoa (a &&& m)) := by
  rw [getSubnet_eq_ok_iff (fits_inet_ntoa a) (fits_inet_ntoa m) (fourParts_inet_ntoa a m)]
  exact .inr ⟨_, forall₂_bytes a m, rfl⟩

/-- **The subnet of canonical addresses** is the canonical form of address and mask, and is its own
subnet. -/
theorem getSubnet_canonical (a m : BitVec 32) : ∃ subnet,
    getSubnet ⟨inet_ntoa a, inet_ntoa m⟩ = .ok subnet ∧ subnet = inet_ntoa (a &&& m) ∧
      getSubnet ⟨subnet, inet_ntoa m⟩ = .ok subnet := by
  refine ⟨_, getSubnet_inet_ntoa a m, rfl, ?_⟩
  rw [getSubnet_inet_ntoa, BitVec.and_assoc, BitVec.and_self]

/-! ### What is accepted -/

/-- A non-empty sequence of digits, with a value of one byte. -/
def Octet (part : List Char) : Prop :=
  part ≠ [] ∧ (∀ c ∈ part, c.isDigit) ∧ value 10 part ≤ 255

instance (part : List Char) : Decidable (Octet part) :=
  decidable_of_iff (part ≠ [] ∧ part.all Char.isDigit ∧ value 10 part ≤ 255)
    (by rw [Octet, List.all_eq_true])

/-- Four octets, with dots between them. -/
def Quad (text : List Char) : Prop :=
  (text.splitOn '.').length = 4 ∧ ∀ part ∈ text.splitOn '.', Octet part

instance (text : List Char) : Decidable (Quad text) := inferInstanceAs (Decidable (_ ∧ _))

/-- It returns something else than an empty string for two quads, and an empty string otherwise. -/
def AcceptsQuads (self : Ipv4Address) : Prop :=
  ∃ r, getSubnet self = .ok r ∧ (r ≠ [] ↔ Quad self.address ∧ Quad self.netmask)

lemma Octet.reads (h : Octet s) : Reads s (value 10 s) ∧ toUnsigned (value 10 s) ≤ 255 := by
  obtain ⟨hne, hdigits, hle⟩ := h
  have hsize : 255 < sizeMod := by decide
  refine ⟨reads_of_digits hne hdigits (by omega), ?_⟩
  rwa [toUnsigned_eq (by omega)]

lemma not_rejected (h : ∀ p ∈ parts, Octet p.1 ∧ Octet p.2) : ¬ Rejected parts := by
  induction parts with
  | nil => exact id
  | cons p parts ih =>
    obtain ⟨⟨hs, ht⟩, hparts⟩ := List.forall_mem_cons.mp h
    rintro ⟨n, k, hn, hk, hlarge⟩
    obtain rfl := hn.unique hs.reads.1
    obtain rfl := hk.unique ht.reads.1
    have hs := hs.reads.2
    have ht := ht.reads.2
    rcases hlarge with hlarge | hlarge | hrej
    · omega
    · omega
    · exact ih hparts hrej

lemma exists_joined (h : ∀ p ∈ parts, Octet p.1 ∧ Octet p.2) :
    ∃ bs, List.Forall₂ Joined parts bs := by
  induction parts with
  | nil => exact ⟨[], .nil⟩
  | cons p parts ih =>
    obtain ⟨⟨hs, ht⟩, hparts⟩ := List.forall_mem_cons.mp h
    obtain ⟨bs, hbs⟩ := ih hparts
    exact ⟨_, .cons ⟨_, _, hs.reads.1, ht.reads.1, hs.reads.2, ht.reads.2, rfl⟩ hbs⟩

lemma octets_of_quads (h : Quad self.address ∧ Quad self.netmask) :
    ∀ p ∈ pairs self, Octet p.1 ∧ Octet p.2 := by
  intro p hp
  obtain ⟨hs, ht⟩ := List.of_mem_zip hp
  exact ⟨h.1.2 _ hs, h.2.2 _ ht⟩

lemma joined_ne_nil (h : FourParts self) (hbs : List.Forall₂ Joined (pairs self) bs) :
    ['.'].intercalate (bs.map to_string) ≠ [] := by
  have hlen := hbs.length_eq
  rw [length_pairs h] at hlen
  cases bs with
  | nil => cases hlen
  | cons b bs =>
    cases bs with
    | nil => cases hlen
    | cons c bs => simp [List.intercalate_cons_cons]

/-- **What `getSubnet` accepts** is two quads, if the texts do not have four parts each, if they are
two quads, or if a part that is too large comes before any that cannot be read. -/
theorem getSubnet_accepts_iff (haddress : Fits self.address) (hnetmask : Fits self.netmask) :
    AcceptsQuads self ↔
      ¬ FourParts self ∨ (Quad self.address ∧ Quad self.netmask) ∨ Rejected (pairs self) := by
  by_cases hfour : FourParts self
  · constructor
    · rintro ⟨r, hr, hiff⟩
      by_cases hnil : r = []
      · rw [getSubnet_eq_ok_iff haddress hnetmask hfour] at hr
        rcases hr with ⟨hrej, -⟩ | ⟨bs, hbs, rfl⟩
        · exact .inr (.inr hrej)
        · exact absurd hnil (joined_ne_nil hfour hbs)
      · exact .inr (.inl (hiff.mp hnil))
    · rintro (hno | hquads | hrej)
      · exact absurd hfour hno
      · obtain ⟨bs, hbs⟩ := exists_joined (octets_of_quads hquads)
        refine ⟨_, (getSubnet_eq_ok_iff haddress hnetmask hfour).mpr (.inr ⟨bs, hbs, rfl⟩), ?_⟩
        exact iff_of_true (joined_ne_nil hfour hbs) hquads
      · refine ⟨[], (getSubnet_eq_ok_iff haddress hnetmask hfour).mpr (.inl ⟨hrej, rfl⟩), ?_⟩
        exact iff_of_false (fun h => h rfl) fun hquads => not_rejected (octets_of_quads hquads) hrej
  · refine iff_of_true ⟨[], getSubnet_of_not_fourParts haddress hnetmask hfour, ?_⟩ (.inl hfour)
    exact iff_of_false (fun h => h rfl) fun hquads => hfour ⟨hquads.1.1, hquads.2.1⟩

/-- An address with a part that is too large. -/
theorem getSubnet_accepts_large : AcceptsQuads ⟨"1.2.3.256".toList, "255.255.0.0".toList⟩ ↔
    ¬ FourParts ⟨"1.2.3.256".toList, "255.255.0.0".toList⟩ ∨
      (Quad "1.2.3.256".toList ∧ Quad "255.255.0.0".toList) ∨
        Rejected (pairs ⟨"1.2.3.256".toList, "255.255.0.0".toList⟩) :=
  getSubnet_accepts_iff (by unfold Fits npos sizeMod; decide) (by unfold Fits npos sizeMod; decide)

/-- Letters make it throw; blanks, and numbers that 32 bits cut, are accepted. -/
theorem getSubnet_not_accepts :
    getSubnet ⟨"a.b.c.d".toList, "255.255.0.0".toList⟩ = .error .invalid_argument ∧
      getSubnet ⟨" 1.2.3.4".toList, "255.255.0.0".toList⟩ = .ok "1.2.0.0".toList ∧
      ¬ Quad " 1.2.3.4".toList ∧
      getSubnet ⟨"4294967297.2.3.4".toList, "255.255.0.0".toList⟩ = .ok "1.2.0.0".toList ∧
      ¬ Quad "4294967297.2.3.4".toList := by
  decide +kernel

end Hbm.Subnet
