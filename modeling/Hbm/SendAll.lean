import Hbm.Multicast
import Mathlib.Data.List.Induction

/-!
`MulticastServer::send` over all interfaces.

One adapter after the other is tried, whatever has become of those before. What one contributes does
not depend on the others: the two options of the socket are set again for each.
-/

namespace Hbm.SendAll

open Hbm.Size Hbm.Multicast

/-! ### One after the other -/

/-- A call returns the same in every state of the socket, and adds the same to what was sent. -/
def Contributes (f : SendSocket → ℤ × SendSocket) (code : ℤ) (sent : List Sent) : Prop :=
  ∀ k, outcome f k = (code, k.sent ++ sent)

/-- The code of the last adapter that failed. -/
def lastFailure (codes : List ℤ) : ℤ := (codes.filter (· ≠ 0)).getLastD 0

lemma lastFailure_snoc (codes : List ℤ) (code : ℤ) :
    lastFailure (codes ++ [code]) = if code ≠ 0 then code else lastFailure codes := by
  unfold lastFailure
  rw [List.filter_append]
  by_cases h : code = 0
  · simp [h]
  · simp [h]

lemma lastFailure_eq_zero_iff {codes : List ℤ} :
    lastFailure codes = 0 ↔ ∀ code ∈ codes, code = 0 := by
  induction codes using List.reverseRecOn with
  | nil => simp [lastFailure]
  | append_singleton codes code ih =>
    rw [lastFailure_snoc]
    by_cases h : code = 0
    · rw [if_neg (not_not.mpr h), ih]
      simp [or_imp, h]
    · simp [h]

variable {f : Netadapter → SendSocket → ℤ × SendSocket} {code : Netadapter → ℤ}
  {sent : Netadapter → List Sent}

/-- **What all of them do** is what each of them does, in their order. -/
lemma overAll_eq (adapters : List Netadapter) (k : SendSocket)
    (h : ∀ a ∈ adapters, Contributes (f a) (code a) (sent a)) :
    (overAll f adapters (0, k)).1 = lastFailure (adapters.map code) ∧
      (overAll f adapters (0, k)).2.sent = k.sent ++ adapters.flatMap sent := by
  induction adapters using List.reverseRecOn with
  | nil => simp [overAll, lastFailure]
  | append_singleton adapters a ih =>
    obtain ⟨hcode, hsent⟩ := ih fun b hb => h b (List.mem_append_left _ hb)
    have hlast := h a (List.mem_append_right _ (List.mem_singleton_self a))
      (overAll f adapters (0, k)).2
    obtain ⟨hcode', hsent'⟩ := Prod.mk.inj hlast
    have hsplit : overAll f (adapters ++ [a]) (0, k) =
        (if (f a (overAll f adapters (0, k)).2).1 ≠ 0 then (f a (overAll f adapters (0, k)).2).1
          else (overAll f adapters (0, k)).1, (f a (overAll f adapters (0, k)).2).2) := by
      unfold overAll
      rw [List.foldl_append, List.foldl_cons, List.foldl_nil]
    rw [hsplit]
    simp only [hcode', hsent', hcode, hsent, List.map_append, List.map_cons, List.map_nil,
      lastFailure_snoc, List.flatMap_append, List.flatMap_cons, List.flatMap_nil, List.append_nil,
      List.append_assoc, and_self]

/-! ### One adapter -/

variable {e : Kernel} {s : Server} {ttl : ℕ} {data : List UInt8} {a : Netadapter} {r : Responses}

/-- The datagram for an adapter: over the interface of its first address, to the group. -/
def datagram (e : Kernel) (s : Server) (ttl : ℕ) (data : List UInt8) (a : Netadapter) :
    Option Sent :=
  match a.ipv4Addresses with
  | [] => none
  | interfaceIp :: _ =>
    (e.aton interfaceIp).bind fun ifAddr => (e.aton s.multicastgroup).map fun addr =>
      ⟨e.device ifAddr, ttl, addr, s.port % 2 ^ 16, data⟩

/-- The datagram, if the kernel takes both options. -/
def handed (e : Kernel) (s : Server) (ttl : ℕ) (data : List UInt8) (r : Responses)
    (a : Netadapter) : Option Sent :=
  if r.multicastIf && r.multicastTtl then datagram e s ttl data a else none

/-- The datagram was handed over, and all of it was sent. -/
def Succeeds (e : Kernel) (s : Server) (ttl : ℕ) (data : List UInt8) (r : Responses)
    (a : Netadapter) : Prop :=
  (handed e s ttl data r a).isSome ∧ toSize r.nbytes = data.length

instance (e : Kernel) (s : Server) (ttl : ℕ) (data : List UInt8) (r : Responses)
    (a : Netadapter) : Decidable (Succeeds e s ttl data r a) := inferInstanceAs (Decidable (_ ∧ _))

/-- What one adapter contributes; zero is for success only. -/
lemma sendOverInterface_contributes (hdata : data ≠ []) : ∃ code,
    Contributes (sendOverInterface e s r ttl a (.bytes data)) code
      (handed e s ttl data r a).toList ∧ (code = 0 ↔ Succeeds e s ttl data r a) := by
  have hlen : (Payload.bytes data).length > 0 := List.length_pos_iff.mpr hdata
  have hinvalid : ERR_INVALIDADAPTER ≠ 0 := by decide
  have hno : ERR_NO_SUCCESS ≠ 0 := by decide
  have haddress : ERR_INVALIDIPADDRESS ≠ 0 := by decide
  unfold Contributes Succeeds handed datagram sendOverInterface outcome
  simp only [if_pos hlen]
  cases a.ipv4Addresses with
  | nil => exact ⟨_, fun k => by simp, iff_of_false hinvalid (by simp)⟩
  | cons interfaceIp rest =>
    simp only [sendOverInterfaceByAddress]
    cases e.aton interfaceIp with
    | none => exact ⟨_, fun k => by simp, iff_of_false haddress (by simp)⟩
    | some ifAddr =>
      simp only [sendOver, Option.bind_some]
      cases r.multicastIf with
      | false => exact ⟨_, fun k => by simp, iff_of_false hinvalid (by simp)⟩
      | true =>
        cases r.multicastTtl with
        | false => exact ⟨_, fun k => by simp, iff_of_false hno (by simp)⟩
        | true =>
          cases e.aton s.multicastgroup with
          | none => exact ⟨_, fun k => by simp, iff_of_false hno (by simp)⟩
          | some addr =>
            refine ⟨if toSize r.nbytes ≠ data.length then ERR_NO_SUCCESS else ERR_SUCCESS,
              fun k => by simp, ?_⟩
            by_cases hbytes : toSize r.nbytes = data.length
            · simp [hbytes, ERR_SUCCESS]
            · simp [hbytes, hno]

/-! ### All adapters -/

/-- **Every adapter gets its datagram.** `send` hands over one datagram for each adapter with an
address for which the kernel takes the options, in the order of the indexes and whatever has become
of the others; and it returns zero exactly if each of them was sent as a whole. -/
theorem send_all (e : Kernel) (s : Server) (ttl : ℕ) (rs : Netadapter → Responses) (k : SendSocket)
    (hdata : data ≠ []) :
    (send e s ttl (.bytes data) rs k).2.sent = k.sent ++
        s.netadapterList.adapters.filterMap (fun a => handed e s ttl data (rs a) a) ∧
      ((send e s ttl (.bytes data) rs k).1 = 0 ↔
        ∀ a ∈ s.netadapterList.adapters, Succeeds e s ttl data (rs a) a) := by
  have hone : ∀ a, ∃ code, Contributes (sendOverInterface e s (rs a) ttl a (.bytes data)) code
      (handed e s ttl data (rs a) a).toList ∧ (code = 0 ↔ Succeeds e s ttl data (rs a) a) :=
    fun a => sendOverInterface_contributes hdata
  choose code hcontributes hcode using hone
  obtain ⟨hret, hsent⟩ := overAll_eq s.netadapterList.adapters k fun a _ => hcontributes a
  refine ⟨hsent.trans ?_, ?_⟩
  · congr 1
    rw [List.filterMap_eq_flatMap_toList]
  · rw [send, hret, lastFailure_eq_zero_iff, List.forall_mem_map]
    exact forall₂_congr fun a _ => hcode a

/-- The second adapter has no address: the first one gets its datagram, and a failure is
reported. -/
theorem send_all_twoAdapters :
    (send kernel twoAdapters 1 (.bytes [7]) (fun _ => accepts 1) ⟨0, 1, []⟩).2.sent =
        [⟨2, 1, 0xefff4d4c, 31416, [7]⟩] ∧
      (send kernel twoAdapters 1 (.bytes [7]) (fun _ => accepts 1) ⟨0, 1, []⟩).1 ≠ 0 := by
  obtain ⟨hsent, hcode⟩ := send_all kernel twoAdapters 1 (fun _ => accepts 1) ⟨0, 1, []⟩
    (List.cons_ne_nil (7 : UInt8) [])
  refine ⟨hsent.trans (by decide +kernel), fun hzero => ?_⟩
  exact absurd (hcode.mp hzero eth1 (.tail _ (.head _))).1 (by decide +kernel)

end Hbm.SendAll
