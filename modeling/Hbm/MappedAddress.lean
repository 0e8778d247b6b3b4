import Hbm.InetPton

/-!
`Ipv6Address::getIpv4MappedAddress`.

Behind the prefix it takes what has three dots and is an address to `inet_aton`. An IPv6 address has
only the canonical form there.
-/

namespace Hbm.MappedAddress

open Hbm.Strtoul Hbm.Dotted Hbm.Inet Hbm.InetPton

/-- What comes behind the prefix is there if the prefix is. -/
def getIpv4MappedAddress (address : List Char) : List Char :=
  let hybridIpv4AddressPrefix := mappedPrefix
  let addressPrefix := address.take hybridIpv4AddressPrefix.length
  if addressPrefix ≠ hybridIpv4AddressPrefix then []
  else
    let ipv4Address := address.drop hybridIpv4AddressPrefix.length
    if ipv4Address.count '.' ≠ 3 then []
    else if inet_aton ipv4Address = none then []
    else ipv4Address

/-- What is returned is the address in the last four bytes of an IPv4-mapped address. -/
def OnlyMapped (s : List Char) : Prop :=
  getIpv4MappedAddress s ≠ [] →
    ∃ a, inet_pton6 s = some (List.replicate 10 0 ++ [0xff, 0xff] ++ bytes a) ∧
      getIpv4MappedAddress s = inet_ntoa a

variable {s t : List Char}

lemma getIpv4MappedAddress_eq_nil (h : ¬ mappedPrefix <+: s) :
    getIpv4MappedAddress s = [] := by
  have hne : s.take mappedPrefix.length ≠ mappedPrefix :=
    fun heq => h (List.prefix_iff_eq_take.mpr heq.symm)
  simp only [getIpv4MappedAddress, if_pos hne]

lemma getIpv4MappedAddress_append (t : List Char) : getIpv4MappedAddress (mappedPrefix ++ t) =
    if t.count '.' = 3 ∧ inet_aton t ≠ none then t else [] := by
  have heq : ¬ (mappedPrefix ++ t).take mappedPrefix.length ≠ mappedPrefix :=
    not_not.mpr List.take_left
  rw [getIpv4MappedAddress]
  simp only [if_neg heq, List.drop_left]
  split_ifs <;> simp_all

lemma getIpv4MappedAddress_inet_ntoa (a : BitVec 32) :
    getIpv4MappedAddress (mappedPrefix ++ inet_ntoa a) = inet_ntoa a := by
  rw [getIpv4MappedAddress_append, if_pos]
  rw [inet_aton_inet_ntoa]
  exact ⟨count_inet_ntoa a, Option.some_ne_none a⟩

/-- **Only IPv4-mapped addresses are accepted** if the text has another prefix, if there are not
three dots behind it, or no address to `inet_aton`, or if it is the canonical form of one. That one
is always returned. -/
theorem onlyMapped_iff (s : List Char) :
    (OnlyMapped s ↔ ∀ t, s = mappedPrefix ++ t →
      t.count '.' ≠ 3 ∨ inet_aton t = none ∨ ∃ a, t = inet_ntoa a) ∧
      ∀ a, getIpv4MappedAddress (mappedPrefix ++ inet_ntoa a) = inet_ntoa a := by
  refine ⟨⟨?_, fun h hne => ?_⟩, getIpv4MappedAddress_inet_ntoa⟩
  · rintro honly t rfl
    by_cases haccepted : t.count '.' = 3 ∧ inet_aton t ≠ none
    · have hne : t ≠ [] := by
        rintro rfl
        exact absurd haccepted.1 (by decide)
      rw [OnlyMapped, getIpv4MappedAddress_append, if_pos haccepted] at honly
      obtain ⟨a, -, ha⟩ := honly hne
      exact .inr (.inr ⟨a, ha⟩)
    · rcases not_and_or.mp haccepted with hdots | hnone
      · exact .inl hdots
      · exact .inr (.inl (not_not.mp hnone))
  · by_cases hprefix : mappedPrefix <+: s
    · obtain ⟨t, rfl⟩ := hprefix
      rcases h t rfl with hdots | hnone | ⟨a, rfl⟩
      · rw [getIpv4MappedAddress_append, if_neg fun h => hdots h.1] at hne
        exact absurd rfl hne
      · rw [getIpv4MappedAddress_append, if_neg fun h => h.2 hnone] at hne
        exact absurd rfl hne
      · exact ⟨a, inet_pton6_mapped a, getIpv4MappedAddress_inet_ntoa a⟩
    · exact absurd (getIpv4MappedAddress_eq_nil hprefix) hne

/-- Octal numbers and a blank are accepted too, and no IPv6 address has them. -/
theorem onlyMapped_fails :
    getIpv4MappedAddress "::ffff:010.1.1.1".toList = "010.1.1.1".toList ∧
      inet_pton6 "::ffff:010.1.1.1".toList = none ∧
      getIpv4MappedAddress "::ffff:1.2.3 .4".toList = "1.2.3 .4".toList ∧
      inet_pton6 "::ffff:1.2.3 .4".toList = none := by
  decide +kernel

end Hbm.MappedAddress
