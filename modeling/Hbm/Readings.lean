import Hbm.AddressCheck
import Hbm.Subnet

/-!
Two readers of one text: `inet_aton` in the checks of an address and a netmask, and `std::stoul` in
`getSubnet`.

The first one knows octal and hexadecimal numbers and ends at a blank, the second one reads decimal
numbers only. A netmask may hide the difference.
-/

namespace Hbm.Readings

open Hbm.Split Hbm.Strtoul Hbm.Dotted Hbm.Inet Hbm.Subnet Hbm.AddressCheck

/-- In each of the four places the decimal numbers have as bytes, under the mask, the same bits as
the bytes that `inet_aton` reads. -/
def ReadAlike (self : Ipv4Address) (A M : BitVec 32) : Prop :=
  ∀ i : Fin 4, Joined ((self.address.splitOn '.').getD i [], (self.netmask.splitOn '.').getD i [])
    (byte A i &&& byte M i)

variable {address netmask s : List Char} {self : Ipv4Address} {A M : BitVec 32} {bs : List ℕ}

lemma of_isValidManualAddress (h : isValidManualAddress s) :
    s.count '.' = 3 ∧ ∃ A, inet_aton s = some A := by
  unfold isValidManualAddress at h
  split at h
  · cases h
  · next hdots =>
    split at h
    · cases h
    · next A hA => exact ⟨not_not.mp hdots, A, hA⟩

lemma of_isValidNetmask (h : isValidNetmask s) :
    s.count '.' = 3 ∧ ∃ A, inet_aton s = some A := by
  unfold isValidNetmask at h
  split at h
  · cases h
  · next hdots =>
    split at h
    · cases h
    · next A hA => exact ⟨not_not.mp hdots, A, hA⟩

/-- Four pairs of parts, one by one. -/
lemma readAlike_iff (h : FourParts self) :
    ReadAlike self A M ↔ List.Forall₂ Joined (pairs self) (bytes (A &&& M)) := by
  obtain ⟨ha, hm⟩ := h
  unfold ReadAlike pairs
  generalize self.address.splitOn '.' = as at ha
  generalize self.netmask.splitOn '.' = ms at hm
  match as, ms, ha, hm with
  | [a0, a1, a2, a3], [m0, m1, m2, m3], _, _ =>
    simp [bytes, List.range_succ, byte_and, Fin.forall_fin_succ]

/-- **The two readers.** For texts that pass the checks, `getSubnet` masks the numbers of
`inet_aton` exactly if the texts are read alike; the canonical forms are. -/
theorem getSubnet_eq_iff (haddress : Fits address) (hnetmask : Fits netmask)
    (hmanual : isValidManualAddress address) (hmask : isValidNetmask netmask) :
    (∃ A M, inet_aton address = some A ∧ inet_aton netmask = some M ∧
      (getSubnet ⟨address, netmask⟩ = .ok (inet_ntoa (A &&& M)) ↔
        ReadAlike ⟨address, netmask⟩ A M)) ∧
      ∀ A M, ReadAlike ⟨inet_ntoa A, inet_ntoa M⟩ A M := by
  obtain ⟨hadots, A, hA⟩ := of_isValidManualAddress hmanual
  obtain ⟨hmdots, M, hM⟩ := of_isValidNetmask hmask
  have hfour : FourParts ⟨address, netmask⟩ := by
    rw [FourParts, length_splitOn, length_splitOn, hadots, hmdots]
    exact ⟨rfl, rfl⟩
  refine ⟨⟨A, M, hA, hM, ?_⟩, fun A M => ?_⟩
  · rw [readAlike_iff hfour, getSubnet_eq_ok_iff haddress hnetmask hfour]
    constructor
    · rintro (⟨-, hnil⟩ | ⟨bs, hbs, hr⟩)
      · exact absurd hnil (inet_ntoa_ne_nil _)
      · have hne : bs ≠ [] := by
          rintro rfl
          exact inet_ntoa_ne_nil _ hr
        rwa [join_injective (bytes_ne_nil _) hne hr]
    · exact fun h => .inr ⟨_, h, rfl⟩
  · rw [readAlike_iff (fourParts_inet_ntoa A M)]
    exact forall₂_bytes A M

/-- A netmask hides the part that is read in two ways. -/
theorem getSubnet_eq_hidden :
    (∃ A M, inet_aton "10.0.0.077".toList = some A ∧ inet_aton "255.0.0.0".toList = some M ∧
      (getSubnet ⟨"10.0.0.077".toList, "255.0.0.0".toList⟩ = .ok (inet_ntoa (A &&& M)) ↔
        ReadAlike ⟨"10.0.0.077".toList, "255.0.0.0".toList⟩ A M)) ∧
      ∀ A M, ReadAlike ⟨inet_ntoa A, inet_ntoa M⟩ A M :=
  getSubnet_eq_iff (by unfold Fits npos Size.sizeMod; decide)
    (by unfold Fits npos Size.sizeMod; decide) (by decide +kernel) (by decide +kernel)

/-- An octal part, and an address with two parts and a blank. -/
theorem getSubnet_differs :
    (isValidManualAddress "010.0.0.1".toList = true ∧ isValidNetmask "255.0.0.0".toList = true ∧
      inet_aton "010.0.0.1".toList = some 0x08000001 ∧
      inet_aton "255.0.0.0".toList = some 0xff000000 ∧
      inet_ntoa (0x08000001 &&& 0xff000000) = "8.0.0.0".toList ∧
      getSubnet ⟨"010.0.0.1".toList, "255.0.0.0".toList⟩ = .ok "10.0.0.0".toList) ∧
    isValidManualAddress "10.1 .a.b".toList = true ∧
      getSubnet ⟨"10.1 .a.b".toList, "255.0.0.0".toList⟩ = .error .invalid_argument := by
  decide +kernel

end Hbm.Readings
