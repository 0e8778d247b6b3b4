import Hbm.Inet

/-!
`inet_pton` of the C library.

Each part of an IPv4 address is a decimal number without zeros in front. An IPv6 address is read
digit by digit; at the first dot its last part is read again, as an IPv4 address.
-/

namespace Hbm.InetPton

open Hbm.Strtoul Hbm.Dotted Hbm.Inet

/-! ### IPv4 -/

/-- The bytes before, and the one in progress once it has a digit. -/
def pton4From : List Char → List ℕ → Option ℕ → Option (List ℕ)
  | [], octets, some octet => if octets.length = 3 then some (octets ++ [octet]) else none
  | [], _, none => none
  | ch :: src, octets, none =>
    if ch.isDigit ∧ octets.length < 4 then pton4From src octets (some (digit ch)) else none
  | ch :: src, octets, some octet =>
    if ch.isDigit then
      let next := octet * 10 + digit ch
      if octet = 0 ∨ 255 < next then none else pton4From src octets (some next)
    else if ch = '.' ∧ octets.length < 3 then pton4From src (octets ++ [octet]) none
    else none

def pton4 (src : List Char) : Option (List ℕ) := pton4From src [] none

/-! ### IPv6 -/

/-- The bytes so far, how many of them were before `::`, where the part in progress begins, how many
digits it has and its value. -/
structure State where
  bytes : List ℕ
  colonp : Option ℕ
  curtok : List Char
  xdigits : ℕ
  val : ℕ

def pton6From : List Char → State → Option State
  | [], s => some s
  | ch :: src, s =>
    if digit ch < 16 then
      if s.xdigits = 4 then none
      else pton6From src { s with xdigits := s.xdigits + 1, val := 16 * s.val + digit ch }
    else if ch = ':' then
      if s.xdigits = 0 then
        if s.colonp.isSome then none
        else pton6From src { s with curtok := src, colonp := some s.bytes.length }
      else if src = [] ∨ 16 < s.bytes.length + 2 then none
      else pton6From src
        { s with
          curtok := src, bytes := s.bytes ++ [s.val / 256, s.val % 256], xdigits := 0, val := 0 }
    else if ch = '.' ∧ s.bytes.length + 4 ≤ 16 then
      (pton4 s.curtok).map fun octets => { s with bytes := s.bytes ++ octets, xdigits := 0 }
    else none

/-- The last part, and zeros for `::`. -/
def finish (s : State) : Option (List ℕ) :=
  if s.xdigits > 0 ∧ 16 < s.bytes.length + 2 then none
  else
    let bytes := if s.xdigits > 0 then s.bytes ++ [s.val / 256, s.val % 256] else s.bytes
    match s.colonp with
    | some k =>
      if bytes.length = 16 then none
      else some (bytes.take k ++ List.replicate (16 - bytes.length) 0 ++ bytes.drop k)
    | none => if bytes.length = 16 then some bytes else none

/-- `inet_pton` with `AF_INET6`: the sixteen bytes. -/
def inet_pton6 (cp : List Char) : Option (List ℕ) :=
  match cStr cp with
  | [] => none
  | ':' :: src =>
    if src.head? = some ':' then (pton6From src ⟨[], none, src, 0, 0⟩).bind finish else none
  | src => (pton6From src ⟨[], none, src, 0, 0⟩).bind finish

/-! ### A number in the canonical form -/

variable {n v : ℕ} {ds rest : List Char} {octets : List ℕ} {a : BitVec 32} {s : State}

/-- The digits behind the first one. -/
lemma pton4From_digits (hds : ∀ c ∈ ds, c.isDigit) (hv : v = 0 → ds = [])
    (hle : 10 ^ ds.length * v + value 10 ds ≤ 255) :
    pton4From (ds ++ rest) octets (some v) =
      pton4From rest octets (some (10 ^ ds.length * v + value 10 ds)) := by
  induction ds generalizing v with
  | nil => simp [value]
  | cons c ds ih =>
    obtain ⟨hc, hds⟩ := List.forall_mem_cons.mp hds
    have hv0 : v ≠ 0 := fun h => List.cons_ne_nil _ _ (hv h)
    have hnext : 10 ^ (c :: ds).length * v + value 10 (c :: ds) =
        10 ^ ds.length * (v * 10 + digit c) + value 10 ds := by
      rw [value_cons, List.length_cons, Nat.pow_succ, Nat.mul_add, Nat.mul_assoc,
        Nat.mul_comm 10 v, Nat.add_assoc]
    rw [hnext] at hle ⊢
    have hone : 1 * (v * 10 + digit c) ≤ 10 ^ ds.length * (v * 10 + digit c) :=
      Nat.mul_le_mul_right _ (Nat.pow_pos (by decide))
    have hsmall : ¬ (v = 0 ∨ 255 < v * 10 + digit c) := by omega
    rw [List.cons_append, pton4From, if_pos hc]
    dsimp only
    rw [if_neg hsmall]
    exact ih hds (by omega) hle

/-- A number and what comes behind it. -/
lemma pton4From_to_string (hn : n < 256) (hoctets : octets.length < 4) :
    pton4From (to_string n ++ rest) octets none = pton4From rest octets (some n) := by
  obtain ⟨d, ds, hds, hd, hdigits⟩ := exists_digit_cons n
  have hval : 10 ^ ds.length * digit d + value 10 ds = n := by
    rw [← value_cons, ← hds, value_to_string]
  have hzero : digit d = 0 → ds = [] := by
    intro h0
    rcases Nat.eq_zero_or_pos n with rfl | hpos
    · exact (List.cons.inj hds).2.symm
    · have hhead := head?_to_string hpos
      rw [digit_eq hd] at h0
      have hrange := isDigit_iff.mp hd
      have hd48 : d.toNat = '0'.toNat := Nat.le_antisymm (Nat.sub_eq_zero_iff_le.mp h0) hrange.1
      rw [hds, List.head?_cons, Char.toNat_inj.mp hd48] at hhead
      exact absurd rfl hhead
  rw [hds, List.cons_append, pton4From, if_pos ⟨hd, hoctets⟩,
    pton4From_digits hdigits hzero (by omega), hval]

lemma pton4From_dot (hoctets : octets.length < 3) :
    pton4From ('.' :: rest) octets (some n) = pton4From rest (octets ++ [n]) none := by
  have hdot : ¬ '.'.isDigit := by decide
  rw [pton4From, if_neg hdot, if_pos ⟨rfl, hoctets⟩]

lemma pton4From_last (hn : n < 256) (hoctets : octets.length = 3) :
    pton4From (to_string n) octets none = some (octets ++ [n]) := by
  have h : pton4From (to_string n ++ []) octets none = pton4From [] octets (some n) :=
    pton4From_to_string hn (by omega)
  rw [List.append_nil] at h
  rw [h, pton4From, if_pos hoctets]

/-- The canonical form is read. -/
lemma pton4_inet_ntoa (a : BitVec 32) : pton4 (inet_ntoa a) = some (bytes a) := by
  rw [pton4, inet_ntoa_eq, pton4From_to_string (byte_lt a 0) (by simp), pton4From_dot (by simp),
    pton4From_to_string (byte_lt a 1) (by simp), pton4From_dot (by simp),
    pton4From_to_string (byte_lt a 2) (by simp), pton4From_dot (by simp),
    pton4From_last (byte_lt a 3) (by simp)]
  rfl

/-! ### Behind the prefix -/

/-- Decimal digits in front of a dot belong to an IPv4 address. -/
lemma pton6From_dot (hds : ∀ c ∈ ds, c.isDigit) (hlen : s.xdigits + ds.length ≤ 4)
    (hbytes : s.bytes.length + 4 ≤ 16) (hquad : pton4 s.curtok = some octets) :
    ∃ t, pton6From (ds ++ '.' :: rest) s = some t ∧ t.bytes = s.bytes ++ octets ∧
      t.colonp = s.colonp ∧ t.xdigits = 0 := by
  induction ds generalizing s with
  | nil =>
    have hdot : ¬ digit '.' < 16 := by decide
    have hcolon : ¬ '.' = ':' := by decide
    rw [List.nil_append, pton6From, if_neg hdot, if_neg hcolon, if_pos ⟨rfl, hbytes⟩, hquad]
    exact ⟨_, rfl, rfl, rfl, rfl⟩
  | cons c ds ih =>
    obtain ⟨hc, hds⟩ := List.forall_mem_cons.mp hds
    have hdigit : digit c < 16 := by
      have := digit_lt_ten.mpr hc
      omega
    have hfour : ¬ s.xdigits = 4 := by
      rw [List.length_cons] at hlen
      omega
    rw [List.length_cons] at hlen
    rw [List.cons_append, pton6From, if_pos hdigit, if_neg hfour]
    exact ih hds (by dsimp only; omega) hbytes hquad

def mappedPrefix : List Char := "::ffff:".toList

lemma inet_pton6_colon {cp src : List Char} (h : cStr cp = ':' :: src)
    (hhead : src.head? = some ':') :
    inet_pton6 cp = (pton6From src ⟨[], none, src, 0, 0⟩).bind finish := by
  unfold inet_pton6
  rw [h]
  exact if_pos hhead

/-- **An IPv4-mapped address** in canonical form is read as zeros, ones and the four bytes. -/
theorem inet_pton6_mapped (a : BitVec 32) : inet_pton6 (mappedPrefix ++ inet_ntoa a) =
    some (List.replicate 10 0 ++ [0xff, 0xff] ++ bytes a) := by
  have hcStr : cStr (mappedPrefix ++ inet_ntoa a) = ':' :: (":ffff:".toList ++ inet_ntoa a) := by
    have h : cStr (mappedPrefix ++ inet_ntoa a) =
        ':' :: (":ffff:".toList ++ cStr (inet_ntoa a)) := rfl
    rw [h, cStr_inet_ntoa]
  have hf : digit 'f' = 15 := by decide
  have hcolon : ¬ digit ':' < 16 := by decide
  have hlong : pton6From (":ffff:".toList ++ inet_ntoa a)
      ⟨[], none, ":ffff:".toList ++ inet_ntoa a, 0, 0⟩ =
        pton6From (inet_ntoa a) ⟨[0xff, 0xff], some 0, inet_ntoa a, 0, 0⟩ := by
    change pton6From (':' :: 'f' :: 'f' :: 'f' :: 'f' :: ':' :: inet_ntoa a) _ = _
    simp [pton6From, hf, hcolon, inet_ntoa_ne_nil]
  have hlen := length_to_string_le (byte_lt a 0)
  obtain ⟨rest, hrest⟩ : ∃ rest, inet_ntoa a = to_string (byte a 0) ++ '.' :: rest :=
    ⟨_, inet_ntoa_eq a⟩
  have hend : ∃ t, pton6From (to_string (byte a 0) ++ '.' :: rest)
      ⟨[0xff, 0xff], some 0, inet_ntoa a, 0, 0⟩ = some t ∧ t.bytes = [0xff, 0xff] ++ bytes a ∧
        t.colonp = some 0 ∧ t.xdigits = 0 :=
    pton6From_dot isDigit_of_mem_to_string (by dsimp only; omega) (by simp) (pton4_inet_ntoa a)
  rw [← hrest] at hend
  obtain ⟨t, ht, hbytes, hcolonp, hxdigits⟩ := hend
  have hfinish : finish t = some (List.replicate 10 0 ++ [0xff, 0xff] ++ bytes a) := by
    simp [finish, hbytes, hcolonp, hxdigits, bytes]
  rw [inet_pton6_colon hcStr rfl, hlong, ht, Option.bind_some, hfinish]

end Hbm.InetPton
