import Hbm.Inet

/-!
`Ipv4Address::isApipaAddress`, `isValidManualAddress` and `isValidNetmask`.

They ask `inet_aton` whether there is an address. The first one looks at the text then, the others
at the number; only the text is compared with the net 169.254.0.0/16.
-/

namespace Hbm.AddressCheck

open Hbm.Size Hbm.Substring Hbm.Split Hbm.Strtoul Hbm.Dotted Hbm.Inet

def apipaNet : List Char := "169.254".toList

def isApipaAddress (address : List Char) : Bool :=
  if address.count '.' ≠ 3 then false
  else if inet_aton address = none then false
  else find? address apipaNet 0 = some 0

def isValidManualAddress (ip : List Char) : Bool :=
  if ip.count '.' ≠ 3 then false
  else
    match inet_aton ip with
    | none => false
    | some bigAddress =>
      let upperMost := (bigAddress >>> 24).setWidth 8
      if bigAddress = 0 then true
      else if upperMost = 0 then false
      else if upperMost = 127 then false
      else if upperMost ≥ 224 then false
      else if isApipaAddress ip then false
      else true

def isValidNetmask (ip : List Char) : Bool :=
  if ip.count '.' ≠ 3 then false
  else
    match inet_aton ip with
    | none => false
    | some bigAddress =>
      if bigAddress = 0 then false
      else if bigAddress = 0xffffffff then false
      else true

/-! ### What they should answer -/

/-- The address is in 169.254.0.0/16. -/
def InApipaNet (A : BitVec 32) : Prop := byte A 0 = 169 ∧ byte A 1 = 254

instance (A : BitVec 32) : Decidable (InApipaNet A) := inferInstanceAs (Decidable (_ ∧ _))

/-- The address is 0.0.0.0, or in none of the reserved ranges. -/
def Manual (A : BitVec 32) : Prop :=
  A = 0 ∨ byte A 0 ≠ 0 ∧ byte A 0 ≠ 127 ∧ byte A 0 < 224 ∧ ¬ InApipaNet A

instance (A : BitVec 32) : Decidable (Manual A) := inferInstanceAs (Decidable (_ ∨ _))

/-- Both checks of the text answer what holds of the address. -/
def Judged (text : List Char) (A : BitVec 32) : Prop :=
  isApipaAddress text = decide (InApipaNet A) ∧ isValidManualAddress text = decide (Manual A)

/-- What begins with 169.254 has a dot behind it, and this is how the net is spelled. -/
def Spelled (text : List Char) (A : BitVec 32) : Prop :=
  ("169.254".toList <+: text → "169.254.".toList <+: text) ∧
    (InApipaNet A → "169.254.".toList <+: text)

variable {s t : List Char} {A : BitVec 32}

lemma find?_zero_iff {p : List Char} : find? s p 0 = some 0 ↔ p <+: s := by
  simp [find?, place_eq_some_iff]

lemma isApipaAddress_iff (hdots : s.count '.' = 3) (h : inet_aton s = some A) :
    isApipaAddress s ↔ apipaNet <+: s := by
  simp [isApipaAddress, hdots, h, find?_zero_iff]

lemma byte_zero (A : BitVec 32) : byte A 0 = ((A >>> 24).setWidth 8).toNat := by
  simp [byte, Nat.shiftRight_eq_div_pow]

/-- The numeric part of the check is right. -/
lemma isValidManualAddress_iff (hdots : s.count '.' = 3) (h : inet_aton s = some A) :
    isValidManualAddress s ↔
      A = 0 ∨ byte A 0 ≠ 0 ∧ byte A 0 ≠ 127 ∧ byte A 0 < 224 ∧ ¬ isApipaAddress s := by
  have hne : ¬ s.count '.' ≠ 3 := not_not.mpr hdots
  rw [isValidManualAddress, if_neg hne, h, byte_zero]
  dsimp only
  generalize (A >>> 24).setWidth 8 = upperMost
  have h0 : upperMost = 0 ↔ upperMost.toNat = 0 := BitVec.toNat_inj.symm
  have h127 : upperMost = 127 ↔ upperMost.toNat = 127 := BitVec.toNat_inj.symm
  have h224 : upperMost ≥ 224 ↔ 224 ≤ upperMost.toNat := Iff.rfl
  simp only [h0, h127, h224]
  by_cases hA : A = 0
  · simp [hA]
  · split_ifs <;> simp_all

lemma judged_iff (hdots : s.count '.' = 3) (h : inet_aton s = some A) :
    Judged s A ↔ (apipaNet <+: s ↔ InApipaNet A) := by
  have hapipa := isApipaAddress_iff hdots h
  have hmanual := isValidManualAddress_iff hdots h
  have h1 : isApipaAddress s = decide (InApipaNet A) ↔ (apipaNet <+: s ↔ InApipaNet A) := by
    rw [Bool.eq_iff_iff, decide_eq_true_iff, hapipa]
  have h2 : isValidManualAddress s = decide (Manual A) ↔
      ((A = 0 ∨ byte A 0 ≠ 0 ∧ byte A 0 ≠ 127 ∧ byte A 0 < 224 ∧ ¬ apipaNet <+: s) ↔
        Manual A) := by
    rw [Bool.eq_iff_iff, decide_eq_true_iff, hmanual, hapipa]
  rw [Judged, h1, h2, Manual]
  refine ⟨fun h => h.1, fun h => ⟨h, ?_⟩⟩
  rw [h]

/-! ### How addresses are spelled -/

/-- What begins with the net and a dot is in the net. -/
lemma inApipaNet_of_begins (h : inet_aton s = some A) (hs : "169.254.".toList <+: s) :
    InApipaNet A := by
  obtain ⟨t, rfl⟩ := hs
  have hcStr : cStr ("169.254.".toList ++ t) =
      to_string 169 ++ '.' :: (to_string 254 ++ '.' :: cStr t) := rfl
  obtain ⟨v, hv, rfl⟩ := Option.map_eq_some_iff.mp h
  rw [hcStr, atonFrom_dot (by decide), atonFrom_dot (by decide)] at hv
  have hbounds := atonFrom_bounds hv
  rw [InApipaNet, byte, byte, BitVec.toNat_ofNat]
  omega

/-- A second part that begins with 254 and goes on is a larger number, and none in the net. -/
lemma value_of_digits {ds : List Char} (hds : ∀ c ∈ ds, c.isDigit) (hne : ds ≠ []) :
    2540 ≤ value 10 ("254".toList ++ ds) ∧
      (value 10 ("254".toList ++ ds) < 256 ^ 3 →
        value 10 ("254".toList ++ ds) < 254 * 256 ^ 2) := by
  have hlt := value_lt fun c hc => digit_lt_ten.mpr (hds c hc)
  have hval : value 10 "254".toList = 254 := by decide
  have hlen := List.length_pos_iff.mpr hne
  have hone : 10 ^ 1 ≤ 10 ^ ds.length := Nat.pow_le_pow_right (by decide) hlen
  rw [value_append, hval]
  rcases Nat.lt_or_ge 4 ds.length with hlong | hshort
  · have hfive : 10 ^ 5 ≤ 10 ^ ds.length := Nat.pow_le_pow_right (by decide) hlong
    omega
  · have hfour : 10 ^ ds.length ≤ 10 ^ 4 := Nat.pow_le_pow_right (by decide) hshort
    omega

/-- A decimal part is read with all its digits. -/
lemma part_decimal {u : List Char} {val : ℕ} {rest : List Char}
    (h : part ("254".toList ++ u) = some (val, rest)) :
    val = value 10 ("254".toList ++ u.takeWhile Char.isDigit) ∧
      rest = u.dropWhile Char.isDigit := by
  have hsigned : signed ("254".toList ++ u) = (false, "254".toList ++ u) := rfl
  have hradix : radix 0 ("254".toList ++ u) = (10, "254".toList ++ u) :=
    radix_zero (show some '2' ≠ some '0' by decide)
  have hds : digits 10 ("254".toList ++ u) = "254".toList ++ u.takeWhile Char.isDigit := by
    rw [digits_ten]
    exact List.takeWhile_append_of_pos (isDigit_of_mem_to_string (n := 254))
  have hdrop : ("254".toList ++ u).drop ("254".toList ++ u.takeWhile Char.isDigit).length =
      u.dropWhile Char.isDigit := by
    have hparts : u.takeWhile Char.isDigit ++ u.dropWhile Char.isDigit = u :=
      List.takeWhile_append_dropWhile
    rw [List.length_append, List.drop_length_add_append]
    calc u.drop (u.takeWhile Char.isDigit).length
        = (u.takeWhile Char.isDigit ++ u.dropWhile Char.isDigit).drop
            (u.takeWhile Char.isDigit).length := by rw [hparts]
      _ = u.dropWhile Char.isDigit := List.drop_left
  have hne : "254".toList ++ u.takeWhile Char.isDigit ≠ [] := List.cons_ne_nil _ _
  obtain ⟨herange, hval, hrest⟩ := part_eq_some h
  simp only [strtoul, hsigned, hradix, hds, if_neg hne, hdrop] at herange hval hrest
  split at herange
  · cases herange
  · next hle =>
    rw [if_neg hle] at hval hrest
    exact ⟨hval, hrest⟩

lemma begins_of_inApipaNet (h : inet_aton s = some A) (hs : apipaNet <+: s) (hin : InApipaNet A) :
    "169.254.".toList <+: s := by
  obtain ⟨t, rfl⟩ := hs
  have hcStr : cStr (apipaNet ++ t) = to_string 169 ++ '.' :: ("254".toList ++ cStr t) := rfl
  obtain ⟨v, hv, rfl⟩ := Option.map_eq_some_iff.mp h
  rw [hcStr, atonFrom_dot (by decide)] at hv
  obtain ⟨val, rest, hpart, hcases⟩ := atonFrom_cases hv
  obtain ⟨rfl, rfl⟩ := part_decimal hpart
  have hdigits : ∀ c ∈ (cStr t).takeWhile Char.isDigit, c.isDigit :=
    fun c hc => List.mem_takeWhile_imp hc
  by_cases hnil : (cStr t).takeWhile Char.isDigit = []
  · -- the second part is 254, and the last one only outside the net
    rw [hnil] at hcases
    rcases hcases with ⟨l, cp, -, hrest, -, -⟩ | ⟨-, rfl⟩
    · have hparts : (cStr t).takeWhile Char.isDigit ++ (cStr t).dropWhile Char.isDigit = cStr t :=
        List.takeWhile_append_dropWhile
      rw [hnil, hrest, List.nil_append] at hparts
      have hdot : ['.'] <+: cStr t := hparts ▸ List.prefix_append ['.'] cp
      exact (List.prefix_append_right_inj apipaNet).mpr (hdot.trans (List.takeWhile_prefix _))
    · have hval : value 10 ("254".toList ++ []) = 254 := by decide
      have hbyte := hin.2
      rw [hval, byte, BitVec.toNat_ofNat] at hbyte
      omega
  · obtain ⟨hlarge, hnet⟩ := value_of_digits hdigits hnil
    rcases hcases with ⟨l, cp, -, -, hle, -⟩ | ⟨hlt, rfl⟩
    · omega
    · have hnet := hnet hlt
      have hbyte := hin.2
      rw [byte, BitVec.toNat_ofNat] at hbyte
      omega

lemma spelled_iff (h : inet_aton s = some A) :
    (apipaNet <+: s ↔ InApipaNet A) ↔ Spelled s A := by
  have hdot : apipaNet <+: "169.254.".toList := by decide
  constructor
  · exact fun hiff => ⟨fun hs => begins_of_inApipaNet h hs (hiff.mp hs),
      fun hin => begins_of_inApipaNet h (hiff.mpr hin) hin⟩
  · exact fun hspelled => ⟨fun hs => inApipaNet_of_begins h (hspelled.1 hs),
      fun hin => hdot.trans (hspelled.2 hin)⟩

/-- **The checks depend on the address alone**, for two texts of one address, exactly if both spell
it so that it begins with `169.254.` in the net 169.254.0.0/16, and does not begin with `169.254`
outside. -/
theorem judged_both_iff (hs : s.count '.' = 3) (ht : t.count '.' = 3) (hsA : inet_aton s = some A)
    (htA : inet_aton t = some A) : Judged s A ∧ Judged t A ↔ Spelled s A ∧ Spelled t A := by
  rw [judged_iff hs hsA, judged_iff ht htA, spelled_iff hsA, spelled_iff htA]

/-- A hexadecimal third part makes no difference. -/
theorem judged_both_hexadecimal :
    Judged "169.254.16.1".toList 0xa9fe1001 ∧ Judged "169.254.0x10.1".toList 0xa9fe1001 ↔
      Spelled "169.254.16.1".toList 0xa9fe1001 ∧ Spelled "169.254.0x10.1".toList 0xa9fe1001 :=
  judged_both_iff (by decide) (by decide) (by decide +kernel) (by decide +kernel)

/-- An address of the net in octal, and one that is not in the net. -/
theorem judged_by_text :
    (inet_aton "0251.254.1.1".toList = inet_aton "169.254.1.1".toList ∧
      isApipaAddress "0251.254.1.1".toList = false ∧ isApipaAddress "169.254.1.1".toList = true ∧
      isValidManualAddress "0251.254.1.1".toList = true ∧
      isValidManualAddress "169.254.1.1".toList = false) ∧
    inet_aton "169.254 ..".toList = inet_aton "169.0.0.254".toList ∧
      isApipaAddress "169.254 ..".toList = true ∧ isApipaAddress "169.0.0.254".toList = false := by
  decide +kernel

end Hbm.AddressCheck
