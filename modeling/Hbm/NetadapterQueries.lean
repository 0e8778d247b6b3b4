import Hbm.NetadapterList

/-!
What a `NetadapterList` is asked for: all adapters, one by its index, and one by its name.

The map is searched by its keys for an index, and from the front for a name. That an adapter is
found at its own index, and that no two have one name, comes from what `update` makes of the list of
interfaces.
-/

namespace Hbm.NetadapterQueries

open Hbm.HardwareInfo Hbm.NetadapterList

/-! ### The queries -/

variable (m_adapters : Adapters)

def getArray : List Netadapter := m_adapters.entries.map Prod.snd

/-- The text of the exception is the error. -/
def getAdapterByName (adapterName : List Char) : Except (List Char) Netadapter :=
  match m_adapters.entries.find? fun iter => iter.2.m_name = adapterName with
  | some iter => .ok iter.2
  | none => .error "invalid interface".toList

def getAdapterByInterfaceIndex (interfaceIndex : ℕ) : Except (List Char) Netadapter :=
  match m_adapters.find interfaceIndex with
  | some adapter => .ok adapter
  | none => .error "invalid interface".toList

/-- One call of `update`, with what the system answers meanwhile. -/
structure Reading where
  sys : System
  getifaddrs : Option (List Ifaddrs)

/-- The constructor makes the first call, on an empty map. -/
def updates (readings : List Reading) : Adapters :=
  readings.foldl (fun m r => update r.sys m r.getifaddrs) .empty

/-- The last list that `getifaddrs` gave. -/
def lastRead (readings : List Reading) : Option (System × List Ifaddrs) :=
  (readings.filterMap fun r => r.getifaddrs.map (r.sys, ·)).getLast?

/-! ### Indexes and names -/

/-- Every adapter is at its own index, and has its name for itself. -/
structure Keyed (m : Adapters) : Prop where
  index : ∀ k ad, m.find k = some ad → ad.m_index = k
  name : ∀ k ad k' ad', m.find k = some ad → m.find k' = some ad' → ad.m_name = ad'.m_name → k = k'

variable {m : Adapters} {k : ℕ} {ad : Netadapter} {sys : System} {interfaces : List Ifaddrs}

lemma keyed_update (hinj : IndexInjective sys interfaces) :
    Keyed (update sys m (some interfaces)) := by
  refine ⟨fun k ad h => ?_, fun k ad k' ad' h h' hname => ?_⟩
  · obtain ⟨i, -, -, rfl, rfl⟩ := (find_update m hinj k ad).mp h
    rfl
  · obtain ⟨i, -, -, rfl, rfl⟩ := (find_update m hinj k ad).mp h
    obtain ⟨j, -, -, rfl, rfl⟩ := (find_update m hinj k' ad').mp h'
    exact congrArg _ hname

lemma mem_getArray : ad ∈ getArray m ↔ ∃ k, m.find k = some ad := by
  simp [getArray, SortedMap.mem_entries_iff]

lemma getAdapterByInterfaceIndex_eq_ok :
    getAdapterByInterfaceIndex m k = .ok ad ↔ m.find k = some ad := by
  unfold getAdapterByInterfaceIndex
  split <;> simp_all

namespace Keyed

variable (hm : Keyed m)
include hm

lemma mem_getArray_iff : ad ∈ getArray m ↔ m.find ad.m_index = some ad := by
  rw [mem_getArray]
  refine ⟨fun ⟨k, h⟩ => ?_, fun h => ⟨_, h⟩⟩
  rw [hm.index k ad h]
  exact h

lemma byName_eq_ok {name : List Char} :
    getAdapterByName m name = .ok ad ↔ ad ∈ getArray m ∧ ad.m_name = name := by
  unfold getAdapterByName
  constructor
  · intro h
    split at h
    · rename_i iter hfind
      cases h
      have hmem := List.mem_of_find?_eq_some hfind
      exact ⟨List.mem_map_of_mem hmem, by simpa using List.find?_some hfind⟩
    · cases h
  · rintro ⟨hmem, rfl⟩
    have hkey := hm.mem_getArray_iff.mp hmem
    cases hfind : m.entries.find? fun iter => iter.2.m_name = ad.m_name with
    | none =>
      have hnot := List.find?_eq_none.mp hfind _ (SortedMap.mem_entries_iff.mpr hkey)
      simp at hnot
    | some iter =>
      have hiter := SortedMap.mem_entries_iff.mp (List.mem_of_find?_eq_some hfind)
      have hname : iter.2.m_name = ad.m_name := by simpa using List.find?_some hfind
      have heq := hm.name _ _ _ _ hiter hkey hname
      rw [heq, hkey, Option.some.injEq] at hiter
      rw [hiter]

lemma sorted_getArray : (getArray m).Pairwise fun x y => x.m_index < y.m_index := by
  rw [getArray, List.pairwise_map]
  refine m.sorted.imp_of_mem fun {x y} hx hy hlt => ?_
  rw [hm.index _ _ (SortedMap.mem_entries_iff.mp hx),
    hm.index _ _ (SortedMap.mem_entries_iff.mp hy)]
  exact hlt

end Keyed

/-! ### Runs -/

/-- In every list that is read, the index of an interface tells its name. -/
def Injective (readings : List Reading) : Prop :=
  ∀ r ∈ readings, ∀ interfaces, r.getifaddrs = some interfaces → IndexInjective r.sys interfaces

variable {readings : List Reading}

lemma keyed_updates (hinj : Injective readings) : Keyed (updates readings) := by
  induction readings using List.reverseRecOn with
  | nil => exact ⟨fun _ _ h => (nomatch h), fun _ _ _ _ h => (nomatch h)⟩
  | append_singleton readings r ih =>
    have hinit : Injective readings := fun r' hr' => hinj r' (List.mem_append_left _ hr')
    have hlast := hinj r (List.mem_append_right _ (List.mem_singleton_self r))
    rw [updates, List.foldl_append, List.foldl_cons, List.foldl_nil, ← updates]
    cases hread : r.getifaddrs with
    | none => exact ih hinit
    | some interfaces => exact keyed_update (hlast interfaces hread)

/-- The map is that of the last list that could be read. -/
lemma updates_eq : updates readings = match lastRead readings with
    | none => .empty
    | some (sys, interfaces) => update sys .empty (some interfaces) := by
  induction readings using List.reverseRecOn with
  | nil => rfl
  | append_singleton readings r ih =>
    rw [updates, List.foldl_append, List.foldl_cons, List.foldl_nil, ← updates, lastRead,
      List.filterMap_append]
    cases hread : r.getifaddrs with
    | none => simpa [hread, lastRead, update] using ih
    | some interfaces => simp [hread, update]

/-- **The queries agree.** After any calls of `update` the array is in the order of the indexes, an
adapter is found by its index and by its name exactly if it is in the array, and the adapters are
those of the interfaces that count in the last list that could be read. -/
theorem queries_agree (readings : List Reading) (hinj : Injective readings) :
    ((getArray (updates readings)).Pairwise fun x y => x.m_index < y.m_index) ∧
    (∀ k ad, getAdapterByInterfaceIndex (updates readings) k = .ok ad ↔
      ad ∈ getArray (updates readings) ∧ ad.m_index = k) ∧
    (∀ name ad, getAdapterByName (updates readings) name = .ok ad ↔
      ad ∈ getArray (updates readings) ∧ ad.m_name = name) ∧
    ∀ ad, ad ∈ getArray (updates readings) ↔ ∃ sys interfaces,
      lastRead readings = some (sys, interfaces) ∧ ∃ i ∈ interfaces, Counts sys i ∧
        ad = adapterOf sys i.ifa_name (addressesOf sys interfaces i.ifa_name) := by
  have hm := keyed_updates hinj
  refine ⟨hm.sorted_getArray, fun k ad => ?_, fun name ad => hm.byName_eq_ok, fun ad => ?_⟩
  · rw [getAdapterByInterfaceIndex_eq_ok, hm.mem_getArray_iff]
    refine ⟨fun h => ?_, fun ⟨h, hk⟩ => hk ▸ h⟩
    have hk := hm.index k ad h
    exact ⟨hk.symm ▸ h, hk⟩
  · rw [mem_getArray, updates_eq]
    cases hread : lastRead readings with
    | none => simp [SortedMap.find, SortedMap.empty, SortedMap.findList]
    | some read =>
      obtain ⟨sys, interfaces⟩ := read
      obtain ⟨r, hr, hsome⟩ := List.mem_filterMap.mp (List.mem_of_getLast? hread)
      obtain ⟨is, his, heq⟩ := Option.map_eq_some_iff.mp hsome
      cases heq
      simp only [find_update _ (hinj r hr interfaces his), Option.some.injEq, Prod.mk.injEq]
      constructor
      · rintro ⟨k, i, hi, hcounts, -, hx⟩
        exact ⟨_, _, ⟨rfl, rfl⟩, i, hi, hcounts, hx⟩
      · rintro ⟨_, _, ⟨rfl, rfl⟩, i, hi, hcounts, hx⟩
        exact ⟨_, i, hi, hcounts, rfl, hx⟩

/-- A list is read, and then one cannot be read. -/
def sampleReadings : List Reading :=
  let sys := ⟨List.length, sampleQuery, fun _ => []⟩
  [⟨sys, some sampleInterfaces⟩, ⟨sys, none⟩]

/-- The adapter is still there, under its index and its name. -/
theorem queries_agree_sample : ∃ ad,
    getAdapterByInterfaceIndex (updates sampleReadings) 4 = .ok ad ∧
      getAdapterByName (updates sampleReadings) "eth0".toList = .ok ad := by
  have hinj : Injective sampleReadings := by
    intro r hr interfaces hread i hi j hj _
    simp only [sampleReadings, List.mem_cons, List.not_mem_nil, or_false] at hr
    rcases hr with rfl | rfl
    · obtain rfl := Option.some.inj hread
      simp only [sampleInterfaces, List.mem_cons, List.not_mem_nil, or_false] at hi hj
      rcases hi with rfl | rfl <;> rcases hj with rfl | rfl <;> rfl
    · cases hread
  obtain ⟨-, hindex, hname, hall⟩ := queries_agree sampleReadings hinj
  have hmem := (hall _).mpr ⟨_, _, rfl, _, .head _, by decide +kernel, rfl⟩
  exact ⟨_, (hindex 4 _).mpr ⟨hmem, rfl⟩, (hname _ _).mpr ⟨hmem, rfl⟩⟩

end Hbm.NetadapterQueries
