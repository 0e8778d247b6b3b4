import Hbm.AddressCheck
import Hbm.HardwareInfo
import Hbm.SortedMap
import Hbm.Subnet

/-!
`NetadapterList::update`.

Every entry of the list that `getifaddrs` returns carries one address of one interface. The entries
of an interface are collected in one adapter. Its name and its numbers are entered with the first of
them; that the text of the hardware address is empty tells that this has not happened yet.
-/

namespace Hbm.NetadapterList

open Hbm.Size Hbm.Split Hbm.Dotted Hbm.Inet Hbm.AddressCheck Hbm.Subnet Hbm.HardwareInfo

structure Ipv6Address where
  address : List Char
  prefixLength : ℕ

/-- The constructor leaves all texts and lists empty, and all numbers zero. -/
structure Netadapter where
  m_name : List Char := []
  m_ipv4Addresses : List Ipv4Address := []
  m_ipv6Addresses : List Ipv6Address := []
  m_macAddress : List Char := []
  m_fwGuid : BitVec 64 := 0
  m_index : ℕ := 0

abbrev Adapters := SortedMap ℕ Netadapter

def IFF_MULTICAST : BitVec 32 := 0x1000

/-- An address with its netmask, which is of the same family. -/
inductive Sockaddr
  | inet (sin_addr netmask : BitVec 32)
  | inet6 (sin6_addr netmask : Fin 16 → BitVec 8)
  | other (family : ℕ)

/-- An entry of the list; the address is `none` for a null pointer. -/
structure Ifaddrs where
  ifa_name : List Char
  ifa_flags : BitVec 32
  ifa_addr : Option Sockaddr

/-- What the system answers: the index of an interface, what its driver knows, and how an IPv6
address is written. -/
structure System where
  if_nametoindex : List Char → ℕ
  query : List Char → Query
  inet_ntop6 : (Fin 16 → BitVec 8) → List Char

variable (sys : System)

/-! ### The code -/

/-- The turns of the loop over the bits of a byte. -/
def bitCount (byte : BitVec 8) : ℕ :=
  (List.range 8).countP fun bitPos => byte &&& (1#8 <<< bitPos) ≠ 0

/-- The bits of the bytes in front of the first one that is zero. -/
def prefixOf (netmask : Fin 16 → BitVec 8) : ℕ :=
  (((List.ofFn netmask).takeWhile (· ≠ 0)).map bitCount).sum

def ipv4Of (sin_addr netmask : BitVec 32) : Ipv4Address :=
  ⟨inet_ntoa sin_addr, inet_ntoa netmask⟩

def ipv6Of (sin6_addr netmask : Fin 16 → BitVec 8) : Ipv6Address :=
  ⟨sys.inet_ntop6 sin6_addr, prefixOf netmask⟩

/-- Only the first entry of an interface enters who it is. -/
def fill (name : List Char) (Adapt : Netadapter) : Netadapter :=
  if Adapt.m_macAddress = [] then
    { Adapt with
      m_index := sys.if_nametoindex name
      m_name := name
      m_macAddress := (getHardwareInfo sys.query name).hwAddrString
      m_fwGuid := (getHardwareInfo sys.query name).fwGuid }
  else Adapt

/-- apipa address at the end! -/
def push (Adapt : Netadapter) : Sockaddr → Netadapter
  | .inet sin_addr netmask =>
    let addressWithNetmask := ipv4Of sin_addr netmask
    if isApipaAddress addressWithNetmask.address then
      { Adapt with m_ipv4Addresses := Adapt.m_ipv4Addresses ++ [addressWithNetmask] }
    else { Adapt with m_ipv4Addresses := addressWithNetmask :: Adapt.m_ipv4Addresses }
  | .inet6 sin6_addr netmask =>
    { Adapt with m_ipv6Addresses := Adapt.m_ipv6Addresses ++ [ipv6Of sys sin6_addr netmask] }
  | .other _ => Adapt

/-- One turn of the loop. -/
def addInterface (adapterMap : Adapters) (interface : Ifaddrs) : Adapters :=
  match interface.ifa_addr with
  | none => adapterMap
  | some ifa_addr =>
    if interface.ifa_flags &&& IFF_MULTICAST = 0 then adapterMap
    else if (getHardwareInfo sys.query interface.ifa_name).isHardware then
      let interfaceIndex := sys.if_nametoindex interface.ifa_name
      adapterMap.alter interfaceIndex fun Adapt =>
        push sys (fill sys interface.ifa_name (Adapt.getD {})) ifa_addr
    else adapterMap

/-- `none` where `getifaddrs` fails. -/
def update (m_adapters : Adapters) : Option (List Ifaddrs) → Adapters
  | none => m_adapters
  | some interfaces => interfaces.foldl (addInterface sys) .empty

/-! ### APIPA addresses -/

/-- The first dots of two texts are at the same place. -/
lemma dots_aligned {u v x y : List Char} (hu : '.' ∉ u) (hx : '.' ∉ x)
    (h : u ++ '.' :: v <+: x ++ '.' :: y) : u = x ∧ v <+: y := by
  obtain ⟨t, ht⟩ := h
  rw [List.append_assoc, List.cons_append] at ht
  have hpart : ∀ s r : List Char, '.' ∉ s →
      (s ++ '.' :: r).takeWhile (· ≠ '.') = s ∧ (s ++ '.' :: r).dropWhile (· ≠ '.') = '.' :: r :=
    fun s r hs => Strtoul.span_append
      (fun c hc => decide_eq_true (ne_of_mem_of_not_mem hc hs)) (by simp)
  have htake := (hpart u (v ++ t) hu).1
  have hdrop := (hpart u (v ++ t) hu).2
  rw [ht] at htake hdrop
  rw [(hpart x y hx).1] at htake
  rw [(hpart x y hx).2] at hdrop
  exact ⟨htake.symm, t, (List.cons_injective hdrop).symm⟩

lemma eq_of_begins {n : ℕ} {rest : List Char} (hn : n < 256)
    (h : to_string 254 <+: to_string n ++ '.' :: rest) : n = 254 := by
  have hlen := length_to_string_le hn
  obtain ⟨t, ht⟩ := h
  rcases List.append_eq_append_iff.mp ht with ⟨s, hs, -⟩ | ⟨s, hs, hrest⟩
  · have hthree : (to_string 254).length = 3 := rfl
    rw [hs, List.length_append, hthree] at hlen
    obtain rfl : s = [] := List.eq_nil_of_length_eq_zero (by omega)
    rw [List.append_nil] at hs
    exact to_string_injective hs
  · -- A shorter number would be followed by its dot.
    cases s with
    | nil =>
      rw [List.append_nil] at hs
      exact (to_string_injective hs).symm
    | cons c s =>
      obtain rfl : '.' = c := (List.cons.inj hrest).1
      have hdot : '.' ∈ to_string 254 := by
        rw [hs]
        simp
      exact absurd hdot (not_mem_to_string 254)

/-- A dotted address begins with `169.254` in the net only. -/
lemma isApipaAddress_inet_ntoa (a : BitVec 32) :
    isApipaAddress (inet_ntoa a) ↔ InApipaNet a := by
  have hnet : apipaNet = to_string 169 ++ '.' :: to_string 254 := rfl
  rw [isApipaAddress_iff (count_inet_ntoa a) (inet_aton_inet_ntoa a), inet_ntoa_eq, hnet]
  constructor
  · intro h
    obtain ⟨hfirst, hrest⟩ := dots_aligned (not_mem_to_string _) (not_mem_to_string _) h
    exact ⟨(to_string_injective hfirst).symm, eq_of_begins (byte_lt a 1) hrest⟩
  · rintro ⟨hfirst, hsecond⟩
    rw [hfirst, hsecond, List.prefix_append_right_inj, List.prefix_cons_inj]
    exact List.prefix_append _ _

/-! ### Which entries belong together -/

/-- An entry of a multicast-capable hardware interface, with an address. -/
def Counts (i : Ifaddrs) : Prop :=
  i.ifa_addr.isSome ∧ i.ifa_flags &&& IFF_MULTICAST ≠ 0 ∧
    (getHardwareInfo sys.query i.ifa_name).isHardware

instance (i : Ifaddrs) : Decidable (Counts sys i) := inferInstanceAs (Decidable (_ ∧ _))

/-- What an entry that counts does to the adapter of its interface. -/
def enter (i : Ifaddrs) (Adapt : Option Netadapter) : Netadapter :=
  push sys (fill sys i.ifa_name (Adapt.getD {})) (i.ifa_addr.getD (.other 0))

/-- The addresses of an interface, in the order of the list. -/
def addressesOf (interfaces : List Ifaddrs) (name : List Char) : List Sockaddr :=
  (interfaces.filter fun i => Counts sys i ∧ i.ifa_name = name).filterMap (·.ifa_addr)

def nonApipa (addresses : List Sockaddr) : List Ipv4Address :=
  addresses.filterMap fun
    | .inet sin_addr netmask => if InApipaNet sin_addr then none else some (ipv4Of sin_addr netmask)
    | _ => none

def apipa (addresses : List Sockaddr) : List Ipv4Address :=
  addresses.filterMap fun
    | .inet sin_addr netmask => if InApipaNet sin_addr then some (ipv4Of sin_addr netmask) else none
    | _ => none

def ipv6 (addresses : List Sockaddr) : List Ipv6Address :=
  addresses.filterMap fun
    | .inet6 sin6_addr netmask => some (ipv6Of sys sin6_addr netmask)
    | _ => none

/-- The adapter of an interface with these addresses. -/
def adapterOf (name : List Char) (addresses : List Sockaddr) : Netadapter where
  m_name := name
  m_ipv4Addresses := (nonApipa addresses).reverse ++ apipa addresses
  m_ipv6Addresses := ipv6 sys addresses
  m_macAddress := (getHardwareInfo sys.query name).hwAddrString
  m_fwGuid := (getHardwareInfo sys.query name).fwGuid
  m_index := sys.if_nametoindex name

variable {sys} {name : List Char} {addresses : List Sockaddr} {interfaces : List Ifaddrs}

/-- One address more. -/
lemma push_adapterOf (a : Sockaddr) :
    push sys (adapterOf sys name addresses) a = adapterOf sys name (addresses ++ [a]) := by
  cases a with
  | inet sin_addr netmask =>
    have hiff := isApipaAddress_inet_ntoa sin_addr
    by_cases h : InApipaNet sin_addr
    · simp [push, adapterOf, ipv4Of, hiff, h, nonApipa, apipa, ipv6]
    · simp [push, adapterOf, ipv4Of, hiff, h, nonApipa, apipa, ipv6]
  | inet6 sin6_addr netmask => simp [push, adapterOf, nonApipa, apipa, ipv6]
  | other family => simp [push, adapterOf, nonApipa, apipa, ipv6]

/-- The first entry of an interface fills in the adapter, and the later ones leave it alone. -/
lemma fill_new (name : List Char) : fill sys name {} = adapterOf sys name [] := by
  simp [fill, adapterOf, nonApipa, apipa, ipv6]

lemma fill_adapterOf (h : (getHardwareInfo sys.query name).isHardware) :
    fill sys name (adapterOf sys name addresses) = adapterOf sys name addresses := by
  rw [fill, if_neg]
  exact hwAddrString_ne_nil h

/-! ### The map -/

lemma addInterface_eq (m : Adapters) (i : Ifaddrs) : addInterface sys m i =
    if Counts sys i then m.alter (sys.if_nametoindex i.ifa_name) (enter sys i) else m := by
  obtain ⟨name, flags, addr⟩ := i
  cases addr with
  | none => simp [addInterface, Counts]
  | some a =>
    by_cases hflag : flags &&& IFF_MULTICAST = 0
    · simp [addInterface, Counts, hflag]
    · simp only [addInterface, Counts, hflag, if_false, Option.isSome_some, ne_eq,
        not_false_eq_true, true_and]
      rfl

/-- The entries of one interface, one after the other. -/
lemma foldl_enter (hname : ∀ i ∈ interfaces, Counts sys i ∧ i.ifa_name = name) :
    interfaces.foldl (fun o i => some (enter sys i o)) none =
      if interfaces = [] then none
      else some (adapterOf sys name (interfaces.filterMap (·.ifa_addr))) := by
  induction interfaces using List.reverseRecOn with
  | nil => rfl
  | append_singleton is i ih =>
    have his := ih fun j hj => hname j (List.mem_append_left _ hj)
    obtain ⟨hcounts, rfl⟩ := hname i (List.mem_append_right _ (List.mem_singleton_self i))
    obtain ⟨a, ha⟩ := Option.isSome_iff_exists.mp hcounts.1
    have hlast : [i].filterMap (·.ifa_addr) = [a] := by simp [ha]
    have hne : is ++ [i] ≠ [] := by simp
    rw [List.foldl_append, his, List.foldl_cons, List.foldl_nil, List.filterMap_append, hlast,
      if_neg hne, enter, ha, Option.getD_some]
    by_cases hnil : is = []
    · rw [if_pos hnil, Option.getD_none, fill_new, push_adapterOf, hnil]
      rfl
    · rw [if_neg hnil, Option.getD_some, fill_adapterOf hcounts.2.2, push_adapterOf]

lemma find_update_eq (m : Adapters) (interfaces : List Ifaddrs) (k : ℕ) :
    (update sys m (some interfaces)).find k =
      ((interfaces.filter (Counts sys ·)).filter (sys.if_nametoindex ·.ifa_name = k)).foldl
        (fun o i => some (enter sys i o)) none := by
  have hstep : addInterface sys = fun m i => if decide (Counts sys i) then
      m.alter (sys.if_nametoindex i.ifa_name) (enter sys i) else m := by
    funext m i
    simp only [addInterface_eq, decide_eq_true_eq]
  rw [update, hstep, ← List.foldl_filter]
  exact SortedMap.find_foldl _ _ _ _ k

/-- The index of an interface tells its name. -/
def IndexInjective (sys : System) (interfaces : List Ifaddrs) : Prop :=
  ∀ i ∈ interfaces, ∀ j ∈ interfaces,
    sys.if_nametoindex i.ifa_name = sys.if_nametoindex j.ifa_name → i.ifa_name = j.ifa_name

lemma filter_key (hinj : IndexInjective sys interfaces) {i : Ifaddrs} (hi : i ∈ interfaces) :
    (interfaces.filter (Counts sys ·)).filter
      (sys.if_nametoindex ·.ifa_name = sys.if_nametoindex i.ifa_name) =
        interfaces.filter fun j => Counts sys j ∧ j.ifa_name = i.ifa_name := by
  rw [List.filter_filter]
  refine List.filter_congr fun j hj => ?_
  have hkey : sys.if_nametoindex j.ifa_name = sys.if_nametoindex i.ifa_name ↔
      j.ifa_name = i.ifa_name := ⟨hinj j hj i hi, congrArg _⟩
  simp [hkey, and_comm]

/-- What is found at an index. -/
lemma find_update (m : Adapters) (hinj : IndexInjective sys interfaces) (k : ℕ) (ad : Netadapter) :
    (update sys m (some interfaces)).find k = some ad ↔
      ∃ i ∈ interfaces, Counts sys i ∧ sys.if_nametoindex i.ifa_name = k ∧
        ad = adapterOf sys i.ifa_name (addressesOf sys interfaces i.ifa_name) := by
  have hentry : ∀ i ∈ interfaces, Counts sys i →
      (update sys m (some interfaces)).find (sys.if_nametoindex i.ifa_name) =
        some (adapterOf sys i.ifa_name (addressesOf sys interfaces i.ifa_name)) := by
    intro i hi hcounts
    have hmem : i ∈ interfaces.filter fun j => Counts sys j ∧ j.ifa_name = i.ifa_name :=
      List.mem_filter.mpr ⟨hi, by simp [hcounts]⟩
    rw [find_update_eq, filter_key hinj hi, foldl_enter, if_neg (List.ne_nil_of_mem hmem),
      addressesOf]
    intro j hj
    simpa using (List.mem_filter.mp hj).2
  constructor
  · intro h
    have hne : (interfaces.filter (Counts sys ·)).filter
        (sys.if_nametoindex ·.ifa_name = k) ≠ [] := by
      intro hnil
      rw [find_update_eq, hnil] at h
      cases h
    obtain ⟨i, hmem⟩ := List.exists_mem_of_ne_nil _ hne
    rw [List.mem_filter, List.mem_filter, decide_eq_true_eq, decide_eq_true_eq] at hmem
    obtain ⟨⟨hi, hcounts⟩, rfl⟩ := hmem
    rw [hentry i hi hcounts, Option.some_inj] at h
    exact ⟨i, hi, hcounts, rfl, h.symm⟩
  · rintro ⟨i, hi, hcounts, rfl, rfl⟩
    exact hentry i hi hcounts

/-! ### The addresses -/

lemma mem_nonApipa {x : Ipv4Address} : x ∈ nonApipa addresses ↔
    ∃ sin_addr netmask, .inet sin_addr netmask ∈ addresses ∧ ¬ InApipaNet sin_addr ∧
      x = ipv4Of sin_addr netmask := by
  rw [nonApipa, List.mem_filterMap]
  constructor
  · rintro ⟨a, ha, heq⟩
    cases a with
    | inet sin_addr netmask =>
      by_cases hin : InApipaNet sin_addr
      · simp [hin] at heq
      · exact ⟨sin_addr, netmask, ha, hin, by simpa [hin, eq_comm] using heq⟩
    | inet6 sin6_addr netmask => cases heq
    | other family => cases heq
  · rintro ⟨sin_addr, netmask, ha, hin, rfl⟩
    exact ⟨_, ha, by simp [hin]⟩

/-- An address outside the APIPA net is in front if there is one. -/
lemma head?_adapterOf (h : ∃ sin_addr netmask,
    .inet sin_addr netmask ∈ addresses ∧ ¬ InApipaNet sin_addr) :
    ∃ sin_addr netmask, (adapterOf sys name addresses).m_ipv4Addresses.head? =
      some (ipv4Of sin_addr netmask) ∧ ¬ InApipaNet sin_addr := by
  obtain ⟨sin_addr, netmask, ha, hin⟩ := h
  have hne : (nonApipa addresses).reverse ≠ [] := by
    rw [Ne, List.reverse_eq_nil_iff]
    exact List.ne_nil_of_mem (mem_nonApipa.mpr ⟨sin_addr, netmask, ha, hin, rfl⟩)
  obtain ⟨x, rest, hx⟩ := List.exists_cons_of_ne_nil hne
  have hmem : x ∈ nonApipa addresses := by
    rw [← List.mem_reverse, hx]
    exact List.mem_cons_self
  obtain ⟨a, netmask, -, hout, rfl⟩ := mem_nonApipa.mp hmem
  refine ⟨a, netmask, ?_, hout⟩
  rw [adapterOf, hx]
  rfl

lemma perm_addressesOf {interfaces' : List Ifaddrs} (h : interfaces.Perm interfaces')
    (name : List Char) :
    (addressesOf sys interfaces name).Perm (addressesOf sys interfaces' name) :=
  (h.filter _).filterMap _

/-- The same addresses in another order. -/
lemma perm_adapterOf {addresses' : List Sockaddr} (h : addresses.Perm addresses') :
    (adapterOf sys name addresses).m_ipv4Addresses.Perm
        (adapterOf sys name addresses').m_ipv4Addresses ∧
      (adapterOf sys name addresses).m_ipv6Addresses.Perm
        (adapterOf sys name addresses').m_ipv6Addresses := by
  refine ⟨List.Perm.append ?_ (h.filterMap _), h.filterMap _⟩
  exact (List.reverse_perm _).trans ((h.filterMap _).trans (List.reverse_perm _).symm)

lemma IndexInjective.perm {interfaces' : List Ifaddrs} (hinj : IndexInjective sys interfaces)
    (h : interfaces.Perm interfaces') : IndexInjective sys interfaces' :=
  fun i hi j hj => hinj i (h.mem_iff.mpr hi) j (h.mem_iff.mpr hj)

/-- Two lists with the same entries give the same keys, and the same addresses for each. -/
lemma find_perm {interfaces' : List Ifaddrs} (m : Adapters) (hinj : IndexInjective sys interfaces)
    (h : interfaces.Perm interfaces') (k : ℕ) :
    Option.Rel (fun ad ad' => ad.m_ipv4Addresses.Perm ad'.m_ipv4Addresses ∧
        ad.m_ipv6Addresses.Perm ad'.m_ipv6Addresses)
      ((update sys m (some interfaces)).find k) ((update sys m (some interfaces')).find k) := by
  cases hfind : (update sys m (some interfaces)).find k with
  | some ad =>
    obtain ⟨i, hi, hcounts, hk, rfl⟩ := (find_update m hinj k ad).mp hfind
    rw [(find_update m (hinj.perm h) k _).mpr ⟨i, h.mem_iff.mp hi, hcounts, hk, rfl⟩]
    exact .some (perm_adapterOf (perm_addressesOf h _))
  | none =>
    cases hfind' : (update sys m (some interfaces')).find k with
    | none => exact .none
    | some ad =>
      obtain ⟨i, hi, hcounts, hk, rfl⟩ := (find_update m (hinj.perm h) k ad).mp hfind'
      rw [(find_update m hinj k _).mpr ⟨i, h.mem_iff.mpr hi, hcounts, hk, rfl⟩] at hfind
      cases hfind

/-- The adapters that come out are those of the entries that count, and hold their addresses. -/
structure Grouped (sys : System) (interfaces : List Ifaddrs) (adapters : Adapters) : Prop where
  keys : ∀ k, (adapters.find k).isSome ↔
    ∃ i ∈ interfaces, Counts sys i ∧ sys.if_nametoindex i.ifa_name = k
  identity : ∀ k ad, adapters.find k = some ad → ad.m_index = k ∧
    (∃ i ∈ interfaces, Counts sys i ∧ sys.if_nametoindex i.ifa_name = k ∧
      ad.m_name = i.ifa_name) ∧
    ad.m_macAddress = (getHardwareInfo sys.query ad.m_name).hwAddrString ∧
    ad.m_fwGuid = (getHardwareInfo sys.query ad.m_name).fwGuid
  ipv4 : ∀ k ad, adapters.find k = some ad →
    ad.m_ipv4Addresses = (nonApipa (addressesOf sys interfaces ad.m_name)).reverse ++
      apipa (addressesOf sys interfaces ad.m_name)
  front : ∀ k ad, adapters.find k = some ad →
    (∃ sin_addr netmask, .inet sin_addr netmask ∈ addressesOf sys interfaces ad.m_name ∧
      ¬ InApipaNet sin_addr) →
    ∃ sin_addr netmask, ad.m_ipv4Addresses.head? = some (ipv4Of sin_addr netmask) ∧
      ¬ InApipaNet sin_addr
  ipv6 : ∀ k ad, adapters.find k = some ad →
    ad.m_ipv6Addresses = ipv6 sys (addressesOf sys interfaces ad.m_name)

/-- **`update` groups without loss.** The keys are the indexes of the interfaces with an entry that
counts, and each adapter is that of its interface with all its addresses: those outside the APIPA
net from the last to the first, then the others in their order. Another order of the entries gives
the same keys, and the same addresses for each. -/
theorem update_groups (m : Adapters) (interfaces : List Ifaddrs)
    (hinj : IndexInjective sys interfaces) :
    Grouped sys interfaces (update sys m (some interfaces)) ∧
    ∀ interfaces', interfaces.Perm interfaces' → ∀ k,
      Option.Rel (fun ad ad' => ad.m_ipv4Addresses.Perm ad'.m_ipv4Addresses ∧
          ad.m_ipv6Addresses.Perm ad'.m_ipv6Addresses)
        ((update sys m (some interfaces)).find k) ((update sys m (some interfaces')).find k) := by
  have hfind := find_update m hinj
  refine ⟨⟨fun k => ?_, fun k ad h => ?_, fun k ad h => ?_, fun k ad h => ?_, fun k ad h => ?_⟩,
    fun interfaces' h k => find_perm m hinj h k⟩
  · rw [Option.isSome_iff_exists]
    simp only [hfind]
    exact ⟨fun ⟨ad, i, hi, hcounts, hk, _⟩ => ⟨i, hi, hcounts, hk⟩,
      fun ⟨i, hi, hcounts, hk⟩ => ⟨_, i, hi, hcounts, hk, rfl⟩⟩
  · obtain ⟨i, hi, hcounts, hk, rfl⟩ := (hfind k ad).mp h
    exact ⟨hk, ⟨i, hi, hcounts, hk, rfl⟩, rfl, rfl⟩
  · obtain ⟨i, -, -, -, rfl⟩ := (hfind k ad).mp h
    rfl
  · obtain ⟨i, -, -, -, rfl⟩ := (hfind k ad).mp h
    exact head?_adapterOf
  · obtain ⟨i, -, -, -, rfl⟩ := (hfind k ad).mp h
    rfl

/-- One interface with an address of each kind. -/
def sampleInterfaces : List Ifaddrs :=
  [⟨"eth0".toList, IFF_MULTICAST, some (.inet 0xa9fe0001 0xffff0000)⟩,
    ⟨"eth0".toList, IFF_MULTICAST, some (.inet 0xac130102 0xffffff00)⟩]

/-- The APIPA address comes first, and ends up behind the other one. -/
theorem update_groups_sample :
    Grouped ⟨List.length, sampleQuery, fun _ => []⟩ sampleInterfaces
      (update ⟨List.length, sampleQuery, fun _ => []⟩ .empty (some sampleInterfaces)) ∧
    ∀ interfaces', sampleInterfaces.Perm interfaces' → ∀ k,
      Option.Rel (fun ad ad' => ad.m_ipv4Addresses.Perm ad'.m_ipv4Addresses ∧
          ad.m_ipv6Addresses.Perm ad'.m_ipv6Addresses)
        ((update ⟨List.length, sampleQuery, fun _ => []⟩ .empty (some sampleInterfaces)).find k)
        ((update ⟨List.length, sampleQuery, fun _ => []⟩ .empty (some interfaces')).find k) :=
  update_groups .empty sampleInterfaces (by
    intro i hi j hj _
    simp only [sampleInterfaces, List.mem_cons, List.not_mem_nil, or_false] at hi hj
    rcases hi with rfl | rfl <;> rcases hj with rfl | rfl <;> rfl)

end Hbm.NetadapterList
