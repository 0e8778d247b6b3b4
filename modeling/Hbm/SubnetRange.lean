import Hbm.LeadingBits
import Hbm.Netmask
import Hbm.Subnet

/-!
The addresses of a subnet.

`getSubnet` gives two addresses the same text exactly if they agree in as many leading bits as the
netmask has ones. So the addresses of a subnet are the numbers of an interval that begins with the
subnet itself, and two subnets are nested or have no address in common.
-/

namespace Hbm.SubnetRange

open Hbm.Dotted Hbm.Subnet Hbm.Netmask Hbm.LeadingBits

variable {a b c m m' : BitVec 32} {n k : ℕ}

/-- The subnet of a canonical address. -/
def subnetOf (m a : BitVec 32) : Except Strtoul.Exception (List Char) :=
  getSubnet ⟨inet_ntoa a, inet_ntoa m⟩

/-- The netmask has the prefix. -/
def HasPrefix (m : BitVec 32) (n : ℕ) : Prop := getPrefixFromNetmask (inet_ntoa m) = some (n : ℤ)

lemma hasPrefix_iff : HasPrefix m n ↔ n ≤ 32 ∧ ∀ i < 32, m.getMsbD i = decide (i < n) :=
  getPrefixFromNetmask_eq_iff

lemma subnetOf_eq_ok_iff : subnetOf m a = .ok (inet_ntoa b) ↔ a &&& m = b := by
  rw [subnetOf, getSubnet_inet_ntoa, Except.ok.injEq, inet_ntoa_injective.eq_iff]

lemma subnetOf_eq_iff (hm : HasPrefix m n) : subnetOf m a = subnetOf m b ↔ Agree n a b := by
  obtain ⟨hn, hbits⟩ := hasPrefix_iff.mp hm
  unfold subnetOf
  rw [getSubnet_inet_ntoa, getSubnet_inet_ntoa, Except.ok.injEq, inet_ntoa_injective.eq_iff,
    and_eq_and_iff hn hbits]

/-- **The range of a subnet.** With a netmask of the prefix `n`, the subnet of an address is written
as an address too, and the addresses of this subnet are the `2 ^ (32 - n)` numbers from it on. -/
theorem subnet_range (hm : HasPrefix m n) (a : BitVec 32) :
    ∃ subnet, subnetOf m a = .ok (inet_ntoa subnet) ∧
      ∀ b, subnetOf m b = .ok (inet_ntoa subnet) ↔
        subnet.toNat ≤ b.toNat ∧ b.toNat < subnet.toNat + 2 ^ (32 - n) := by
  obtain ⟨hn, hbits⟩ := hasPrefix_iff.mp hm
  refine ⟨a &&& m, subnetOf_eq_ok_iff.mpr rfl, fun b => ?_⟩
  rw [subnetOf_eq_ok_iff, eq_comm, and_eq_and_iff hn hbits]
  exact agree_iff_interval hn hbits

theorem subnet_range_home : ∃ subnet,
    subnetOf 0xffffff00 0xac130102 = .ok (inet_ntoa subnet) ∧
      ∀ b, subnetOf 0xffffff00 b = .ok (inet_ntoa subnet) ↔
        subnet.toNat ≤ b.toNat ∧ b.toNat < subnet.toNat + 256 :=
  subnet_range (n := 24) (hasPrefix_iff.mpr (by decide)) _

/-- **Nested or disjoint.** Where two subnets have an address in common, the one with the longer
prefix lies within the other. -/
theorem subnets_nested (hm : HasPrefix m n) (hm' : HasPrefix m' k) (hn : n ≤ k)
    (h : subnetOf m a = subnetOf m c) (h' : subnetOf m' b = subnetOf m' c) :
    ∀ x, subnetOf m' b = subnetOf m' x → subnetOf m a = subnetOf m x := by
  intro x hx
  rw [subnetOf_eq_iff hm] at h ⊢
  rw [subnetOf_eq_iff hm'] at h' hx
  exact h.nested h' hn hx

theorem subnets_nested_home :
    subnetOf 0xffff0000 0xac130000 = subnetOf 0xffff0000 0xac130109 := by
  have h16 : HasPrefix 0xffff0000 16 := hasPrefix_iff.mpr (by decide)
  have h24 : HasPrefix 0xffffff00 24 := hasPrefix_iff.mpr (by decide)
  have hsame : subnetOf 0xffff0000 0xac130000 = subnetOf 0xffff0000 0xac130102 :=
    (subnetOf_eq_iff h16).mpr (by decide)
  have hnear : subnetOf 0xffffff00 0xac130102 = subnetOf 0xffffff00 0xac130109 :=
    (subnetOf_eq_iff h24).mpr (by decide)
  exact subnets_nested h16 h24 (by decide) hsame rfl _ hnear

/-- **The longest prefix.** Two addresses that differ are in one subnet exactly for the prefixes up
to the number of leading bits that they have in common. -/
theorem longest_prefix (h : a ≠ b) :
    ∃ k < 32, ∀ m n, HasPrefix m n → (subnetOf m a = subnetOf m b ↔ n ≤ k) := by
  obtain ⟨k, hk, hagree⟩ := exists_agree_iff h
  exact ⟨k, hk, fun m n hm => (subnetOf_eq_iff hm).trans (hagree n)⟩

theorem longest_prefix_home : ∃ k < 32, ∀ m n, HasPrefix m n →
    (subnetOf m 0xac130102 = subnetOf m 0xac130203 ↔ n ≤ k) :=
  longest_prefix (by decide)

end Hbm.SubnetRange
