import Hbm.NetadapterList
import Mathlib.Data.Set.Basic

/-!
`NetadapterList::checkSubnet`.

The subnets are compared as texts. Subnets with masks of different lengths may contain one another
without having the same number, and with the same number they need not be the same subnet.
-/

namespace Hbm.CheckSubnet

open Hbm.Size Hbm.Split Hbm.Strtoul Hbm.Dotted Hbm.Subnet Hbm.NetadapterList

/-- The loop over the addresses of an adapter; `none` where it is left at its end. -/
def addressLoop (requestedSubnet name : List Char) :
    List Ipv4Address → Except Exception (Option (List Char))
  | [] => .ok none
  | address :: addresses => do
    if requestedSubnet = (← getSubnet address) then return some name
    addressLoop requestedSubnet name addresses

/-- The loop over the map, in the order of the keys. -/
def adapterLoop (excludeAdapterName requestedSubnet : List Char) :
    List (ℕ × Netadapter) → Except Exception (List Char)
  | [] => .ok []
  | (_, adapter) :: adapters =>
    if excludeAdapterName ≠ adapter.m_name then do
      match ← addressLoop requestedSubnet adapter.m_name adapter.m_ipv4Addresses with
      | some name => return name
      | none => adapterLoop excludeAdapterName requestedSubnet adapters
    else adapterLoop excludeAdapterName requestedSubnet adapters

def checkSubnet (m_adapters : Adapters) (excludeAdapterName : List Char)
    (requestedAddress : Ipv4Address) : Except Exception (List Char) := do
  let requestedSubnet ← getSubnet requestedAddress
  adapterLoop excludeAdapterName requestedSubnet m_adapters.entries

/-! ### Networks -/

/-- The number that a dotted text denotes. -/
def number (text : List Char) : BitVec 32 :=
  BitVec.ofNat 32 (((text.splitOn '.').map (value 10)).foldl (fun n b => 256 * n + b) 0)

/-- Address and mask are written as four octets each. -/
structure Valid (x : Ipv4Address) : Prop where
  address : Quad x.address
  netmask : Quad x.netmask
  fits_address : Fits x.address
  fits_netmask : Fits x.netmask

/-- The address without the bits of the host. -/
def netNumber (x : Ipv4Address) : BitVec 32 := number x.address &&& number x.netmask

/-- The addresses of the subnet. -/
def network (x : Ipv4Address) : Set (BitVec 32) := {b | b &&& number x.netmask = netNumber x}

/-- An address of the adapter lies inside the requested subnet. -/
def HasInside (requested : Ipv4Address) (adapter : Netadapter) : Prop :=
  ∃ x ∈ adapter.m_ipv4Addresses, number x.address ∈ network requested

/-- An address of the adapter is in a subnet with the number of the requested one. -/
def HasNumber (requested : Ipv4Address) (adapter : Netadapter) : Prop :=
  ∃ x ∈ adapter.m_ipv4Addresses, netNumber x = netNumber requested

instance (requested : Ipv4Address) (adapter : Netadapter) :
    Decidable (HasNumber requested adapter) :=
  inferInstanceAs (Decidable (∃ x ∈ adapter.m_ipv4Addresses, _))

/-- The subnet of an address of the adapter overlaps the requested one. -/
def Overlaps (requested : Ipv4Address) (adapter : Netadapter) : Prop :=
  ∃ x ∈ adapter.m_ipv4Addresses, (network x ∩ network requested).Nonempty

/-- All adapters but the excluded one, in the order of the map. -/
def others (m_adapters : Adapters) (excludeAdapterName : List Char) : List Netadapter :=
  (m_adapters.entries.map Prod.snd).filter fun adapter => excludeAdapterName ≠ adapter.m_name

variable {x requested : Ipv4Address} {adapter : Netadapter} {text : List Char}

/-- The bytes of the number are the values of the parts. -/
lemma bytes_number (h : Quad text) : bytes (number text) = (text.splitOn '.').map (value 10) := by
  obtain ⟨hlen, hoctets⟩ := h
  rw [number]
  generalize text.splitOn '.' = parts at hlen hoctets ⊢
  match parts, hlen with
  | [s, t, u, v], _ =>
    have hs := (hoctets s (by simp)).2.2
    have ht := (hoctets t (by simp)).2.2
    have hu := (hoctets u (by simp)).2.2
    have hv := (hoctets v (by simp)).2.2
    simp only [bytes, byte, List.range_succ, List.range_zero, List.nil_append, List.cons_append,
      List.map_cons, List.map_nil, List.foldl_cons, List.foldl_nil, BitVec.toNat_ofNat]
    simp only [List.cons.injEq, and_true]
    omega

lemma bytes_and (a m : BitVec 32) :
    bytes (a &&& m) = ((bytes a).zip (bytes m)).map fun p => p.1 &&& p.2 := by
  simp [bytes, List.range_succ, byte_and]

lemma forall₂_joined (hx : Valid x) : List.Forall₂ Joined (pairs x) (bytes (netNumber x)) := by
  rw [netNumber, bytes_and, bytes_number hx.address, bytes_number hx.netmask, List.zip_map,
    List.map_map, List.forall₂_map_right_iff, ← pairs, List.forall₂_same]
  intro p hp
  obtain ⟨hs, ht⟩ := octets_of_quads ⟨hx.address, hx.netmask⟩ p hp
  have hn : value 10 p.1 < 256 := Nat.lt_succ_of_le hs.2.2
  have hk : value 10 p.2 < 256 := Nat.lt_succ_of_le ht.2.2
  refine ⟨_, _, hs.reads.1, ht.reads.1, hs.reads.2, ht.reads.2, ?_⟩
  rw [toUnsigned_eq hn, toUnsigned_eq hk]
  rfl

/-- The subnet is written as its number. -/
lemma getSubnet_valid (hx : Valid x) : getSubnet x = .ok (inet_ntoa (netNumber x)) := by
  rw [getSubnet_eq_ok_iff hx.fits_address hx.fits_netmask ⟨hx.address.1, hx.netmask.1⟩]
  exact .inr ⟨_, forall₂_joined hx, rfl⟩

/-- Subnets with one number overlap there. -/
lemma overlaps_of_hasNumber (h : HasNumber requested adapter) : Overlaps requested adapter := by
  obtain ⟨x, hx, heq⟩ := h
  have hself : ∀ y : Ipv4Address, netNumber y ∈ network y := fun y => by
    simp [network, netNumber, BitVec.and_assoc]
  exact ⟨x, hx, netNumber x, hself x, heq ▸ hself requested⟩

/-! ### The loops -/

lemma addressLoop_eq {addresses : List Ipv4Address} (h : ∀ x ∈ addresses, Valid x)
    (name : List Char) : addressLoop (inet_ntoa (netNumber requested)) name addresses =
      .ok (if ∃ x ∈ addresses, netNumber x = netNumber requested then some name else none) := by
  induction addresses with
  | nil => rfl
  | cons x addresses ih =>
    obtain ⟨hx, hrest⟩ := List.forall_mem_cons.mp h
    have hiff : inet_ntoa (netNumber requested) = inet_ntoa (netNumber x) ↔
        netNumber x = netNumber requested := by
      rw [inet_ntoa_injective.eq_iff, eq_comm]
    rw [addressLoop, getSubnet_valid hx]
    simp only [bind, Except.bind, hiff, ih hrest, List.exists_mem_cons_iff]
    by_cases heq : netNumber x = netNumber requested
    · simp only [heq, if_true, true_or]
      rfl
    · simp only [heq, if_false, false_or]

lemma addressLoop_adapter (h : ∀ x ∈ adapter.m_ipv4Addresses, Valid x) :
    addressLoop (inet_ntoa (netNumber requested)) adapter.m_name adapter.m_ipv4Addresses =
      .ok (if HasNumber requested adapter then some adapter.m_name else none) := by
  rw [addressLoop_eq h]
  rfl

/-- The first adapter with the number is the one that is returned. -/
lemma adapterLoop_eq {adapters : List (ℕ × Netadapter)} {excludeAdapterName : List Char}
    (h : ∀ e ∈ adapters, ∀ x ∈ e.2.m_ipv4Addresses, Valid x) :
    adapterLoop excludeAdapterName (inet_ntoa (netNumber requested)) adapters =
      .ok (((((adapters.map Prod.snd).filter fun adapter =>
        excludeAdapterName ≠ adapter.m_name).find? (HasNumber requested ·)).map
          Netadapter.m_name).getD []) := by
  induction adapters with
  | nil => rfl
  | cons e adapters ih =>
    obtain ⟨he, hrest⟩ := List.forall_mem_cons.mp h
    obtain ⟨k, adapter⟩ := e
    rw [adapterLoop, List.map_cons]
    by_cases hname : excludeAdapterName ≠ adapter.m_name
    · rw [if_pos hname, List.filter_cons_of_pos (by simpa using hname), List.find?_cons,
        addressLoop_adapter he]
      by_cases hnumber : HasNumber requested adapter
      · rw [if_pos hnumber, decide_eq_true hnumber]
        rfl
      · rw [if_neg hnumber, decide_eq_false hnumber]
        exact ih hrest
    · rw [if_neg hname, List.filter_cons_of_neg (by simpa using hname)]
      exact ih hrest

lemma checkSubnet_eq {m_adapters : Adapters} {excludeAdapterName : List Char}
    (hrequested : Valid requested)
    (h : ∀ e ∈ m_adapters.entries, ∀ x ∈ e.2.m_ipv4Addresses, Valid x) :
    checkSubnet m_adapters excludeAdapterName requested =
      .ok ((((others m_adapters excludeAdapterName).find? (HasNumber requested ·)).map
        Netadapter.m_name).getD []) := by
  rw [checkSubnet, getSubnet_valid hrequested]
  exact adapterLoop_eq h

/-! ### What is found -/

/-- The name of an adapter with an address inside is returned if there is one, and nothing if no
subnet overlaps the requested one. -/
def Finds (m_adapters : Adapters) (excludeAdapterName : List Char) (requested : Ipv4Address) :
    Prop :=
  ∃ r, checkSubnet m_adapters excludeAdapterName requested = .ok r ∧
    ((∃ adapter ∈ others m_adapters excludeAdapterName, HasInside requested adapter) →
      ∃ adapter ∈ others m_adapters excludeAdapterName, HasInside requested adapter ∧
        r = adapter.m_name) ∧
    ((∀ adapter ∈ others m_adapters excludeAdapterName, ¬ Overlaps requested adapter) → r = [])

lemma finds_of_eq {m_adapters : Adapters} {excludeAdapterName r : List Char}
    (h : checkSubnet m_adapters excludeAdapterName requested = .ok r)
    (hempty : (∀ adapter ∈ others m_adapters excludeAdapterName, ¬ Overlaps requested adapter) →
      r = []) :
    Finds m_adapters excludeAdapterName requested ↔
      (∀ adapter ∈ others m_adapters excludeAdapterName, ¬ HasInside requested adapter) ∨
      ∃ adapter ∈ others m_adapters excludeAdapterName, HasInside requested adapter ∧
        adapter.m_name = r := by
  constructor
  · rintro ⟨r', hr', hinside, -⟩
    obtain rfl : r = r' := Except.ok.inj (h.symm.trans hr')
    by_cases hany : ∃ adapter ∈ others m_adapters excludeAdapterName, HasInside requested adapter
    · obtain ⟨adapter, hmem, hin, heq⟩ := hinside hany
      exact .inr ⟨adapter, hmem, hin, heq.symm⟩
    · push Not at hany
      exact .inl hany
  · intro hcases
    refine ⟨r, h, fun ⟨adapter, hmem, hin⟩ => ?_, hempty⟩
    rcases hcases with hnone | ⟨adapter', hmem', hin', heq⟩
    · exact absurd hin (hnone adapter hmem)
    · exact ⟨adapter', hmem', hin', heq.symm⟩

/-- **An occupied subnet is found** exactly if no address of another adapter is inside, or the first
of them that has a subnet with the number of the requested one is named like one with an address
inside; or if there is none and that one has no name. -/
theorem finds_iff (m_adapters : Adapters) (excludeAdapterName : List Char)
    (hrequested : Valid requested)
    (h : ∀ e ∈ m_adapters.entries, ∀ x ∈ e.2.m_ipv4Addresses, Valid x) :
    Finds m_adapters excludeAdapterName requested ↔
      (∀ adapter ∈ others m_adapters excludeAdapterName, ¬ HasInside requested adapter) ∨
      (∃ before first after, others m_adapters excludeAdapterName = before ++ first :: after ∧
        HasNumber requested first ∧ (∀ adapter ∈ before, ¬ HasNumber requested adapter) ∧
        ∃ adapter ∈ others m_adapters excludeAdapterName, HasInside requested adapter ∧
          adapter.m_name = first.m_name) ∨
      (∀ adapter ∈ others m_adapters excludeAdapterName, ¬ HasNumber requested adapter) ∧
        ∃ adapter ∈ others m_adapters excludeAdapterName, HasInside requested adapter ∧
          adapter.m_name = [] := by
  have heq : checkSubnet m_adapters excludeAdapterName requested = _ := checkSubnet_eq hrequested h
  cases hfind : (others m_adapters excludeAdapterName).find? (HasNumber requested ·) with
  | none =>
    rw [hfind] at heq
    have hno : ∀ adapter ∈ others m_adapters excludeAdapterName, ¬ HasNumber requested adapter := by
      simpa using hfind
    rw [finds_of_eq heq fun _ => rfl]
    refine or_congr_right ⟨fun hnamed => .inr ⟨hno, hnamed⟩, ?_⟩
    rintro (⟨before, first, after, hlist, hfirst, -⟩ | ⟨-, hnamed⟩)
    · exact absurd hfirst (hno first (by simp [hlist]))
    · exact hnamed
  | some first =>
    rw [hfind] at heq
    obtain ⟨hfirst, before, after, hlist, hbefore⟩ := List.find?_eq_some_iff_append.mp hfind
    have hfirst := of_decide_eq_true hfirst
    have hmem : first ∈ others m_adapters excludeAdapterName := by simp [hlist]
    have hempty : (∀ adapter ∈ others m_adapters excludeAdapterName,
        ¬ Overlaps requested adapter) → first.m_name = [] :=
      fun hno => absurd (overlaps_of_hasNumber hfirst) (hno first hmem)
    rw [finds_of_eq heq hempty]
    refine or_congr_right ⟨fun hnamed => .inl ⟨before, first, after, hlist, hfirst, ?_, hnamed⟩, ?_⟩
    · intro adapter hadapter
      simpa using hbefore adapter hadapter
    · rintro (⟨before', first', after', hlist', hfirst', hbefore', hnamed⟩ | ⟨hno, -⟩)
      · have hfind' : (others m_adapters excludeAdapterName).find? (HasNumber requested ·) =
            some first' :=
          List.find?_eq_some_iff_append.mpr ⟨decide_eq_true hfirst', before', after', hlist',
            fun adapter hadapter => by simpa using hbefore' adapter hadapter⟩
        rwa [Option.some_inj.mp (hfind.symm.trans hfind')]
      · exact absurd hfirst (hno first hmem)

/-- An interface in a part of a larger network. -/
def sampleAdapters : Adapters :=
  ⟨[(2, { m_name := "eth0".toList
          m_ipv4Addresses := [⟨"172.19.1.2".toList, "255.255.255.0".toList⟩]
          m_index := 2 })], List.pairwise_singleton _ _⟩

/-- A request for the whole network. -/
def sampleRequest : Ipv4Address := ⟨"172.19.0.5".toList, "255.255.0.0".toList⟩

lemma valid_sampleRequest : Valid sampleRequest :=
  ⟨by decide, by decide, by unfold Fits npos sizeMod; decide, by unfold Fits npos sizeMod; decide⟩

lemma valid_sampleAdapters :
    ∀ e ∈ sampleAdapters.entries, ∀ x ∈ e.2.m_ipv4Addresses, Valid x := by
  simp only [sampleAdapters, List.mem_singleton, forall_eq]
  exact ⟨by decide, by decide, by unfold Fits npos sizeMod; decide,
    by unfold Fits npos sizeMod; decide⟩

theorem finds_iff_sample : Finds sampleAdapters [] sampleRequest ↔
    (∀ adapter ∈ others sampleAdapters [], ¬ HasInside sampleRequest adapter) ∨
    (∃ before first after, others sampleAdapters [] = before ++ first :: after ∧
      HasNumber sampleRequest first ∧ (∀ adapter ∈ before, ¬ HasNumber sampleRequest adapter) ∧
      ∃ adapter ∈ others sampleAdapters [], HasInside sampleRequest adapter ∧
        adapter.m_name = first.m_name) ∨
    (∀ adapter ∈ others sampleAdapters [], ¬ HasNumber sampleRequest adapter) ∧
      ∃ adapter ∈ others sampleAdapters [], HasInside sampleRequest adapter ∧
        adapter.m_name = [] :=
  finds_iff sampleAdapters [] valid_sampleRequest valid_sampleAdapters

/-- The interface occupies an address of the network, and nothing is found. -/
theorem finds_not : (∃ adapter ∈ others sampleAdapters [], HasInside sampleRequest adapter) ∧
    checkSubnet sampleAdapters [] sampleRequest = .ok [] ∧
    ¬ Finds sampleAdapters [] sampleRequest := by
  have hresult : checkSubnet sampleAdapters [] sampleRequest = .ok [] := by decide +kernel
  have hinside : ∃ adapter ∈ others sampleAdapters [], HasInside sampleRequest adapter := by
    refine ⟨_, List.mem_filter.mpr ⟨List.mem_cons_self, by decide⟩, _, List.mem_cons_self, ?_⟩
    rw [network, Set.mem_ofPred_eq]
    decide +kernel
  refine ⟨hinside, hresult, ?_⟩
  rintro ⟨r, hr, hfinds, -⟩
  obtain ⟨adapter, hmem, -, hname⟩ := hfinds hinside
  obtain rfl := Except.ok.inj (hresult.symm.trans hr)
  simp [others, sampleAdapters] at hmem
  rw [hmem] at hname
  cases hname

end Hbm.CheckSubnet
