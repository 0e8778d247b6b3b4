import Hbm.Size
import Mathlib.Data.List.Basic

/-!
The multicast server under Linux sends a datagram over one interface.

The interface is selected by its index, or by the first IPv4 address of its adapter. The
overloads for a string all select by the index. Those for a pointer and a length, with an adapter
or the index of one, select by the address.
-/

namespace Hbm.Multicast

open Hbm.Size

/-! ### The server and the kernel -/

structure Netadapter where
  index : ℕ
  ipv4Addresses : List String

/-- The adapters in the order of their indices, which are the keys of the map. -/
structure NetadapterList where
  adapters : List Netadapter
  sorted : adapters.Pairwise fun a b => a.index < b.index

/-- `std::map::find` with the index, and `none` where an exception is thrown. -/
def NetadapterList.getAdapterByInterfaceIndex (l : NetadapterList) (index : ℕ) :
    Option Netadapter :=
  l.adapters.find? fun a => a.index == index

structure Server where
  multicastgroup : String
  port : ℕ
  netadapterList : NetadapterList

/-- `inet_aton`, and the index of the interface which the kernel selects by an address. -/
structure Kernel where
  aton : String → Option ℕ
  device : ℕ → ℤ

/-- What the kernel answers: `setsockopt` succeeds or not, and `sendto` returns a number. -/
structure Responses where
  multicastIf : Bool
  multicastTtl : Bool
  nbytes : ℤ

structure Sent where
  interface : ℤ
  ttl : ℕ
  addr : ℕ
  port : ℕ
  data : List UInt8
  deriving DecidableEq

/-- The socket for sending: its two options, and what was handed to the kernel. -/
structure SendSocket where
  interface : ℤ
  ttl : ℕ
  sent : List Sent

/-- A pointer and a length. -/
inductive Payload where
  | null (length : ℕ)
  | bytes (data : List UInt8)

/-- The string with the same data. -/
def Payload.string : Payload → Option (List UInt8)
  | null 0 => some []
  | null (_ + 1) => none
  | bytes data => some data

def Payload.length : Payload → ℕ
  | null length => length
  | bytes data => data.length

def ERR_SUCCESS : ℤ := 0
def ERR_NO_SUCCESS : ℤ := -1
def ERR_INVALIDADAPTER : ℤ := -2
def ERR_INVALIDIPADDRESS : ℤ := -3

/-! ### The entry points -/

section Send

variable (e : Kernel) (s : Server) (r : Responses) (ttl : ℕ)

/-- What both selections do next, from `setsockopt` with `IP_MULTICAST_IF` on. -/
def sendOver (interface : ℤ) (data : List UInt8) (k : SendSocket) : ℤ × SendSocket :=
  if r.multicastIf = false then (ERR_INVALIDADAPTER, k)
  else if r.multicastTtl = false then (ERR_NO_SUCCESS, { k with interface })
  else match e.aton s.multicastgroup with
    | none => (ERR_NO_SUCCESS, { k with interface, ttl })
    | some addr =>
      let sent := k.sent ++ [⟨interface, ttl, addr, s.port % 2 ^ 16, data⟩]
      (if toSize r.nbytes ≠ data.length then ERR_NO_SUCCESS else ERR_SUCCESS,
        { k with interface, ttl, sent })

def sendOverInterfaceByAddress (interfaceIp : String) (p : Payload) (k : SendSocket) :
    ℤ × SendSocket :=
  match p with
  | .null length => (if length > 0 then ERR_NO_SUCCESS else ERR_SUCCESS, k)
  | .bytes data => match e.aton interfaceIp with
    | none => (ERR_INVALIDIPADDRESS, k)
    | some ifAddr => sendOver e s r ttl (e.device ifAddr) data k

def sendOverInterfaceByIndex (interfaceIndex : ℕ) (p : Payload) (k : SendSocket) :
    ℤ × SendSocket :=
  match p with
  | .null length => (if length > 0 then ERR_NO_SUCCESS else ERR_SUCCESS, k)
  | .bytes data => sendOver e s r ttl (toInt interfaceIndex) data k

def sendOverInterfaceByIndexString (interfaceIndex : ℕ) (data : List UInt8) (k : SendSocket) :
    ℤ × SendSocket :=
  if data.isEmpty then (ERR_SUCCESS, k)
  else sendOverInterfaceByIndex e s r ttl interfaceIndex (.bytes data) k

/-- The overload for an adapter and a pointer. -/
def sendOverInterface (adapter : Netadapter) (p : Payload) (k : SendSocket) : ℤ × SendSocket :=
  if p.length > 0 then
    match p with
    | .null _ => (ERR_NO_SUCCESS, k)
    | .bytes data => match adapter.ipv4Addresses with
      | [] => (ERR_INVALIDADAPTER, k)
      | interfaceIp :: _ => sendOverInterfaceByAddress e s r ttl interfaceIp (.bytes data) k
  else (ERR_SUCCESS, k)

/-- The overload for an adapter and a string. -/
def sendOverInterfaceString (adapter : Netadapter) (data : List UInt8) (k : SendSocket) :
    ℤ × SendSocket :=
  sendOverInterfaceByIndexString e s r ttl adapter.index data k

/-- The overload for an index and a pointer: a null pointer is left at once, with 0. -/
def sendOverInterfaceIndex (interfaceIndex : ℕ) (p : Payload) (k : SendSocket) :
    ℤ × SendSocket :=
  match p with
  | .null _ => (ERR_SUCCESS, k)
  | .bytes data => match s.netadapterList.getAdapterByInterfaceIndex interfaceIndex with
    | none => (ERR_INVALIDADAPTER, k)
    | some adapter => sendOverInterface e s r ttl adapter (.bytes data) k

/-- The overload for an index and a string. -/
def sendOverInterfaceIndexString (interfaceIndex : ℕ) (data : List UInt8) (k : SendSocket) :
    ℤ × SendSocket :=
  if data.isEmpty then (ERR_SUCCESS, k)
  else match s.netadapterList.getAdapterByInterfaceIndex interfaceIndex with
    | none => (ERR_INVALIDADAPTER, k)
    | some adapter => sendOverInterfaceString e s r ttl adapter data k

end Send

/-- One adapter after the other. The last failure is returned. -/
def overAll (f : Netadapter → SendSocket → ℤ × SendSocket) (adapters : List Netadapter)
    (acc : ℤ × SendSocket) : ℤ × SendSocket :=
  adapters.foldl (fun acc adapter =>
    let (retValIntern, k) := f adapter acc.2
    (if retValIntern ≠ 0 then retValIntern else acc.1, k)) acc

/-- Over all interfaces, with what the kernel answers for each adapter. -/
def send (e : Kernel) (s : Server) (ttl : ℕ) (p : Payload) (rs : Netadapter → Responses)
    (k : SendSocket) : ℤ × SendSocket :=
  overAll (fun adapter => sendOverInterface e s (rs adapter) ttl adapter p)
    s.netadapterList.adapters (0, k)

/-! ### Lookup -/

lemma getAdapterByInterfaceIndex_self {l : NetadapterList} {a : Netadapter}
    (ha : a ∈ l.adapters) : l.getAdapterByInterfaceIndex a.index = some a := by
  obtain ⟨adapters, sorted⟩ := l
  change adapters.find? (fun b => b.index == a.index) = some a
  induction adapters with
  | nil => cases ha
  | cons b rest ih =>
    obtain ⟨hb, hrest⟩ := List.pairwise_cons.mp sorted
    rcases List.mem_cons.mp ha with rfl | ha
    · exact List.find?_cons_of_pos (by simp)
    · have hne : (b.index == a.index) = false := by
        have := hb a ha
        simp only [beq_eq_false_iff_ne]
        omega
      rw [List.find?_cons_of_neg (by simp [hne])]
      exact ih hrest ha

/-! ### Agreement -/

section Agree

variable (e : Kernel) (s : Server) (r : Responses) (ttl : ℕ) (a : Netadapter) (p : Payload)

/-- The entry points which take these data. -/
def entryPoints : List (SendSocket → ℤ × SendSocket) :=
  [sendOverInterface e s r ttl a p, sendOverInterfaceIndex e s r ttl a.index p,
    sendOverInterfaceByIndex e s r ttl a.index p] ++
  match p.string with
  | none => []
  | some data =>
    [sendOverInterfaceString e s r ttl a data, sendOverInterfaceIndexString e s r ttl a.index data,
      sendOverInterfaceByIndexString e s r ttl a.index data]

/-- The result code, and what the kernel got. -/
def outcome (f : SendSocket → ℤ × SendSocket) (k : SendSocket) : ℤ × List Sent :=
  ((f k).1, (f k).2.sent)

def Agree (k : SendSocket) : Prop :=
  ∀ f ∈ entryPoints e s r ttl a p, ∀ g ∈ entryPoints e s r ttl a p, outcome f k = outcome g k

/-- The first address of the adapter selects the same interface as its index does. Where the
kernel takes no interface at all, having no address is the same as well. -/
def SameInterface : Prop :=
  match a.ipv4Addresses with
  | [] => r.multicastIf = false
  | interfaceIp :: _ => ∃ ifAddr, e.aton interfaceIp = some ifAddr ∧
      (r.multicastIf = true → r.multicastTtl = true → (e.aton s.multicastgroup).isSome = true →
        e.device ifAddr = toInt a.index)

def Sendable : Prop :=
  match p with
  | .null length => length = 0
  | .bytes data => data ≠ [] ∧ SameInterface e s r a

end Agree

section

variable {e : Kernel} {s : Server} {r : Responses} {ttl : ℕ} {a : Netadapter} {k : SendSocket}
variable {data : List UInt8} {i j : ℤ}

lemma outcome_sendOver_refused (hif : r.multicastIf = false) :
    outcome (sendOver e s r ttl i data) k = (ERR_INVALIDADAPTER, k.sent) := by
  unfold outcome sendOver
  rw [if_pos hif]

/-- Once the interface is taken, a datagram is handed over or a failure is reported. -/
lemma outcome_sendOver_taken (hif : r.multicastIf = true) :
    outcome (sendOver e s r ttl i data) k = (ERR_NO_SUCCESS, k.sent) ∨
      ∃ addr code, (code = ERR_SUCCESS ∨ code = ERR_NO_SUCCESS) ∧
        outcome (sendOver e s r ttl i data) k =
          (code, k.sent ++ [⟨i, ttl, addr, s.port % 2 ^ 16, data⟩]) := by
  unfold outcome sendOver
  by_cases httl : r.multicastTtl = false
  · left
    simp [hif, httl]
  cases haddr : e.aton s.multicastgroup with
  | none =>
    left
    simp [hif, httl]
  | some addr =>
    right
    refine ⟨addr, if toSize r.nbytes ≠ data.length then ERR_NO_SUCCESS else ERR_SUCCESS, ?_, ?_⟩
    · split_ifs
      · exact .inr rfl
      · exact .inl rfl
    · simp [hif, httl]

/-- An empty datagram is either handed over or reported as a failure. -/
lemma outcome_sendOver_nil :
    outcome (sendOver e s r ttl i []) k ≠ (ERR_SUCCESS, k.sent) := by
  intro h
  cases hif : r.multicastIf with
  | false =>
    rw [outcome_sendOver_refused hif] at h
    exact absurd (Prod.mk.inj h).1 (by decide)
  | true =>
    rcases outcome_sendOver_taken hif with ho | ⟨addr, code, -, ho⟩
    · rw [ho] at h
      exact absurd (Prod.mk.inj h).1 (by decide)
    · rw [ho] at h
      have hlen := congrArg List.length (Prod.mk.inj h).2
      simp at hlen

/-- Two interfaces give the same outcome if they are the same or nothing is handed over. -/
lemma outcome_sendOver_eq_iff :
    outcome (sendOver e s r ttl i data) k = outcome (sendOver e s r ttl j data) k ↔
      (r.multicastIf = true → r.multicastTtl = true →
        (e.aton s.multicastgroup).isSome = true → i = j) := by
  unfold outcome sendOver
  by_cases hif : r.multicastIf = false
  · simp [hif]
  by_cases httl : r.multicastTtl = false
  · simp [hif, httl]
  cases haddr : e.aton s.multicastgroup with
  | none => simp [hif, httl]
  | some addr => simp [hif, httl]

/-- The codes for an adapter or an address that is not valid are not returned then. -/
lemma outcome_sendOver_taken_ne (hif : r.multicastIf = true) {code : ℤ} {sent : List Sent}
    (hcode : code < ERR_NO_SUCCESS) :
    outcome (sendOver e s r ttl i data) k ≠ (code, sent) := by
  intro h
  rcases outcome_sendOver_taken hif with ho | ⟨addr, c, rfl | rfl, ho⟩
  · exact Int.ne_of_lt hcode (Prod.mk.inj (h.symm.trans ho)).1
  · have hpos : code < ERR_SUCCESS := Int.lt_trans hcode (by decide)
    exact Int.ne_of_lt hpos (Prod.mk.inj (h.symm.trans ho)).1
  · exact Int.ne_of_lt hcode (Prod.mk.inj (h.symm.trans ho)).1

/-- The adapter is reported, and nothing is sent, exactly if the kernel refuses the interface. -/
lemma outcome_sendOver_invalid :
    outcome (sendOver e s r ttl i data) k = (ERR_INVALIDADAPTER, k.sent) ↔
      r.multicastIf = false := by
  refine ⟨fun h => ?_, outcome_sendOver_refused⟩
  cases hif : r.multicastIf with
  | false => rfl
  | true => exact absurd h (outcome_sendOver_taken_ne hif (by decide))

lemma outcome_sendOver_ne_invalidIp :
    outcome (sendOver e s r ttl i data) k ≠ (ERR_INVALIDIPADDRESS, k.sent) := by
  cases hif : r.multicastIf with
  | false =>
    rw [outcome_sendOver_refused hif]
    exact fun h => absurd (Prod.mk.inj h).1 (by decide)
  | true => exact outcome_sendOver_taken_ne hif (by decide)

/-- The selection by the first address against the selection by the index. -/
lemma outcome_sendOverInterface_iff (hdata : data ≠ []) :
    outcome (sendOverInterface e s r ttl a (.bytes data)) k =
        outcome (sendOver e s r ttl (toInt a.index) data) k ↔ SameInterface e s r a := by
  have hlen : (Payload.bytes data).length > 0 := List.length_pos_iff.mpr hdata
  unfold SameInterface
  cases hips : a.ipv4Addresses with
  | nil =>
    have hout : outcome (sendOverInterface e s r ttl a (.bytes data)) k =
        (ERR_INVALIDADAPTER, k.sent) := by
      simp only [outcome, sendOverInterface, if_pos hlen, hips]
    rw [hout]
    exact eq_comm.trans outcome_sendOver_invalid
  | cons interfaceIp rest =>
    cases hif : e.aton interfaceIp with
    | none =>
      have hout : outcome (sendOverInterface e s r ttl a (.bytes data)) k =
          (ERR_INVALIDIPADDRESS, k.sent) := by
        simp only [outcome, sendOverInterface, if_pos hlen, hips, sendOverInterfaceByAddress, hif]
      rw [hout]
      refine iff_of_false (fun h => ?_) (fun ⟨_, h, _⟩ => nomatch hif.symm.trans h)
      exact outcome_sendOver_ne_invalidIp h.symm
    | some ifAddr =>
      have hout : sendOverInterface e s r ttl a (.bytes data) k =
          sendOver e s r ttl (e.device ifAddr) data k := by
        simp only [sendOverInterface, if_pos hlen, hips, sendOverInterfaceByAddress, hif]
      have heq : outcome (sendOverInterface e s r ttl a (.bytes data)) k =
          outcome (sendOver e s r ttl (e.device ifAddr) data) k := by
        simp only [outcome, hout]
      rw [heq, outcome_sendOver_eq_iff]
      constructor
      · exact fun h => ⟨ifAddr, hif, h⟩
      · rintro ⟨_, hx, h⟩
        rw [hif] at hx
        cases hx
        exact h

/-- With an adapter of the list and some data, there are two ways to the kernel. -/
lemma entryPoints_bytes (ha : a ∈ s.netadapterList.adapters) (hdata : data ≠ []) :
    entryPoints e s r ttl a (.bytes data) =
      List.replicate 2 (sendOverInterface e s r ttl a (.bytes data)) ++
        List.replicate 4 (sendOver e s r ttl (toInt a.index) data) := by
  have hempty : data.isEmpty = false := by
    cases data with
    | nil => exact absurd rfl hdata
    | cons _ _ => rfl
  have hindex : sendOverInterfaceIndex e s r ttl a.index (.bytes data) =
      sendOverInterface e s r ttl a (.bytes data) := by
    funext k
    simp only [sendOverInterfaceIndex, getAdapterByInterfaceIndex_self ha]
  have hbyIndex : sendOverInterfaceByIndexString e s r ttl a.index data =
      sendOver e s r ttl (toInt a.index) data := by
    funext k
    simp [sendOverInterfaceByIndexString, sendOverInterfaceByIndex, hempty]
  have hstring : sendOverInterfaceString e s r ttl a data =
      sendOver e s r ttl (toInt a.index) data := hbyIndex
  have hindexString : sendOverInterfaceIndexString e s r ttl a.index data =
      sendOver e s r ttl (toInt a.index) data := by
    funext k
    simp [sendOverInterfaceIndexString, hempty, getAdapterByInterfaceIndex_self ha, hstring]
  unfold entryPoints
  rw [hindex]
  simp only [Payload.string, hstring, hindexString, hbyIndex]
  rfl

lemma agree_null_iff {length : ℕ} :
    Agree e s r ttl a (.null length) k ↔ length = 0 := by
  constructor
  · intro h
    have hout := h (sendOverInterfaceIndex e s r ttl a.index (.null length))
      (by simp [entryPoints]) (sendOverInterfaceByIndex e s r ttl a.index (.null length))
      (by simp [entryPoints])
    have hcode := (Prod.mk.inj hout).1
    simp only [sendOverInterfaceIndex, sendOverInterfaceByIndex] at hcode
    split_ifs at hcode with hpos
    · exact absurd hcode (by decide)
    · exact Nat.eq_zero_of_not_pos hpos
  · rintro rfl
    have hall : ∀ f ∈ entryPoints e s r ttl a (.null 0), outcome f k = (ERR_SUCCESS, k.sent) := by
      intro f hf
      simp only [entryPoints, Payload.string, List.mem_append, List.mem_cons,
        List.not_mem_nil, or_false] at hf
      rcases hf with (rfl | rfl | rfl) | (rfl | rfl | rfl) <;> rfl
    exact fun f hf g hg => (hall f hf).trans (hall g hg).symm

lemma not_agree_nil : ¬ Agree e s r ttl a (.bytes []) k := by
  intro h
  have hout := h (sendOverInterfaceByIndex e s r ttl a.index (.bytes [])) (by simp [entryPoints])
    (sendOverInterface e s r ttl a (.bytes [])) (by simp [entryPoints])
  exact outcome_sendOver_nil hout

lemma agree_bytes_iff (ha : a ∈ s.netadapterList.adapters) (hdata : data ≠ []) :
    Agree e s r ttl a (.bytes data) k ↔ SameInterface e s r a := by
  have hsame : outcome (sendOverInterface e s r ttl a (.bytes data)) k =
      outcome (sendOver e s r ttl (toInt a.index) data) k ↔ SameInterface e s r a :=
    outcome_sendOverInterface_iff hdata
  unfold Agree
  rw [entryPoints_bytes ha hdata, ← hsame]
  constructor
  · exact fun h => h _ (by simp) _ (by simp)
  · intro h f hf g hg
    simp only [List.mem_append, List.mem_replicate] at hf hg
    rcases hf with ⟨-, rfl⟩ | ⟨-, rfl⟩ <;> rcases hg with ⟨-, rfl⟩ | ⟨-, rfl⟩
    · rfl
    · exact h
    · exact h.symm
    · rfl

/-- **The entry points agree** for an adapter of the list exactly if there is something to send
and its first address and its index select one interface, or if there is a null pointer without
a length. -/
theorem agree_iff (ha : a ∈ s.netadapterList.adapters) {p : Payload} :
    Agree e s r ttl a p k ↔ Sendable e s r a p := by
  cases p with
  | null length => exact agree_null_iff
  | bytes data =>
    by_cases hdata : data = []
    · subst hdata
      exact iff_of_false not_agree_nil fun h => h.1 rfl
    · exact (agree_bytes_iff ha hdata).trans (and_iff_right hdata).symm

/-! ### Over all interfaces -/

lemma outcome_sendOver_congr {k' : SendSocket} (hk : k.sent = k'.sent) :
    outcome (sendOver e s r ttl i data) k = outcome (sendOver e s r ttl i data) k' := by
  unfold outcome sendOver
  split_ifs
  all_goals cases e.aton s.multicastgroup <;> simp [hk]

lemma outcome_byIndex_congr {p : Payload} {k' : SendSocket} (hk : k.sent = k'.sent) :
    outcome (sendOverInterfaceByIndex e s r ttl a.index p) k =
      outcome (sendOverInterfaceByIndex e s r ttl a.index p) k' := by
  cases p with
  | null length => exact Prod.ext rfl hk
  | bytes data => exact outcome_sendOver_congr hk

lemma outcome_byAddress_eq {p : Payload} (h : Sendable e s r a p) :
    outcome (sendOverInterface e s r ttl a p) k =
      outcome (sendOverInterfaceByIndex e s r ttl a.index p) k := by
  cases p with
  | null length =>
    obtain rfl : length = 0 := h
    rfl
  | bytes data => exact (outcome_sendOverInterface_iff h.1).mpr h.2

lemma overAll_congr {f g : Netadapter → SendSocket → ℤ × SendSocket} :
    ∀ (adapters : List Netadapter) (acc acc' : ℤ × SendSocket),
      (∀ a ∈ adapters, ∀ k k' : SendSocket, k.sent = k'.sent → outcome (f a) k = outcome (g a) k') →
      acc.1 = acc'.1 → acc.2.sent = acc'.2.sent →
      (overAll f adapters acc).1 = (overAll g adapters acc').1 ∧
        (overAll f adapters acc).2.sent = (overAll g adapters acc').2.sent
  | [], _, _, _, hcode, hsent => ⟨hcode, hsent⟩
  | a :: rest, acc, acc', h, hcode, hsent => by
    obtain ⟨hret, hnext⟩ := Prod.mk.inj (h a List.mem_cons_self acc.2 acc'.2 hsent)
    refine overAll_congr rest _ _ (fun b hb => h b (List.mem_cons_of_mem _ hb)) ?_ hnext
    simp only [hret, hcode]

/-- Where the entry points agree for every adapter, `send` is as well what it would be if every
interface were selected by its index. -/
theorem send_eq_byIndex {p : Payload} {rs : Netadapter → Responses}
    (h : ∀ a ∈ s.netadapterList.adapters, Sendable e s (rs a) a p) :
    outcome (send e s ttl p rs) k =
      outcome (fun k => overAll (fun a => sendOverInterfaceByIndex e s (rs a) ttl a.index p)
        s.netadapterList.adapters (0, k)) k := by
  obtain ⟨hcode, hsent⟩ := overAll_congr (f := fun a => sendOverInterface e s (rs a) ttl a p)
    (g := fun a => sendOverInterfaceByIndex e s (rs a) ttl a.index p)
    s.netadapterList.adapters (0, k) (0, k)
    (fun a ha k k' hk => (outcome_byAddress_eq (h a ha)).trans (outcome_byIndex_congr hk)) rfl rfl
  exact Prod.ext hcode hsent

end

/-! ### Examples and counterexamples -/

/-- One adapter with an address, and one without. -/
def twoAdapters : Server where
  multicastgroup := "239.255.77.76"
  port := 31416
  netadapterList := ⟨[⟨2, ["172.19.1.2"]⟩, ⟨3, []⟩], by simp⟩

def eth0 : Netadapter := ⟨2, ["172.19.1.2"]⟩
def eth1 : Netadapter := ⟨3, []⟩

def kernel : Kernel where
  aton text :=
    if text = "172.19.1.2" then some 0xac130102
    else if text = "239.255.77.76" then some 0xefff4d4c
    else none
  device addr := if addr = 0xac130102 then 2 else 0

/-- The kernel takes everything, and sends `n` bytes. -/
def accepts (n : ℤ) : Responses := ⟨true, true, n⟩

theorem agree_eth0 : Agree kernel twoAdapters (accepts 1) 1 eth0 (.bytes [7]) ⟨0, 1, []⟩ := by
  have hmem : eth0 ∈ twoAdapters.netadapterList.adapters := List.mem_cons_self
  exact (agree_iff hmem).mpr ⟨List.cons_ne_nil _ _, 0xac130102, by decide +kernel,
    fun _ _ _ => by decide +kernel⟩

/-- A null pointer with a length is a failure or nothing at all, no data are nothing or an empty
datagram, and one byte goes over an adapter without an address or it is refused. -/
theorem disagree :
    ¬ Agree kernel twoAdapters (accepts 1) 1 eth0 (.null 1) ⟨0, 1, []⟩ ∧
      ¬ Agree kernel twoAdapters (accepts 0) 1 eth0 (.bytes []) ⟨0, 1, []⟩ ∧
      ¬ Agree kernel twoAdapters (accepts 1) 1 eth1 (.bytes [7]) ⟨0, 1, []⟩ := by
  refine ⟨fun h => ?_, fun h => ?_, fun h => ?_⟩
  · exact absurd (h _ (.head _) _ (.tail _ (.head _))) (by decide +kernel)
  · exact absurd (h _ (.head _) _ (.tail _ (.tail _ (.head _)))) (by decide +kernel)
  · exact absurd (h _ (.head _) _ (.tail _ (.tail _ (.head _)))) (by decide +kernel)

end Hbm.Multicast
