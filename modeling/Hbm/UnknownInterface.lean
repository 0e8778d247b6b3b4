import Hbm.Multicast
import Hbm.Rearm

/-!
The multicast server under Linux receives a datagram, and looks up the adapter it came in by.

The datagram has left the kernel by then. If the adapter is not found, the result is negative all
the same, and to a handler that receives until it is, this is the end of the queue. What is left
there waits for the next datagram to arrive.
-/

namespace Hbm.UnknownInterface

open Hbm.Multicast Hbm.Rearm

/-- What a call has put into its arguments; `adapter` is `none` where it was left as it was. -/
structure Received (α : Type*) where
  nbytes : ℤ
  data : List UInt8
  adapter : Option α
  ttl : ℤ

/-- `receiveTelegram` with the index. An empty queue is an error of `recvmsg`; the control messages
are read only if there is data. -/
def receiveTelegramIndex (len : ℕ) : List Telegram → Rearm.Received × List Telegram
  | [] => (⟨-1, [], 0, 1⟩, [])
  | t :: queue =>
    let nbytes := min t.data.length len
    let (index, ttl) := if nbytes > 0 then MulticastServer.readControl 0 t.control else (0, 1)
    (⟨nbytes, t.data.take len, index, ttl⟩, queue)

section Receive

variable {α : Type*} (out : Netadapter → α) (l : NetadapterList) (len : ℕ)

/-- What the other two overloads have in common; `out` is what they give of the adapter. -/
def receiveTelegram (queue : List Telegram) : Received α × List Telegram :=
  let (r, rest) := receiveTelegramIndex len queue
  if r.nbytes > 0 then
    match l.getAdapterByInterfaceIndex r.adapterIndex with
    | some adapter => (⟨r.nbytes, r.data, some (out adapter), r.ttl⟩, rest)
    | none => (⟨-1, r.data, none, r.ttl⟩, rest)
  else (⟨r.nbytes, r.data, none, r.ttl⟩, rest)

/-- The overload with the adapter. -/
def receiveTelegramAdapter : List Telegram → Received Netadapter × List Telegram :=
  receiveTelegram id l len

/-- The overload with the name of the adapter. -/
def receiveTelegramName (getName : Netadapter → String) :
    List Telegram → Received String × List Telegram :=
  receiveTelegram getName l len

/-- A handler that receives until the result is negative: the results, and what is left. -/
def drain : List Telegram → List (Received α) × List Telegram
  | [] => ([(receiveTelegram out l len []).1], [])
  | t :: queue =>
    let r := receiveTelegram out l len (t :: queue)
    if r.1.nbytes < 0 then ([r.1], r.2)
    else
      let d := drain queue
      (r.1 :: d.1, d.2)

/-- The interface that a datagram arrived on. -/
def arrivedOn (t : Telegram) : ℕ := (MulticastServer.readControl 0 t.control).1

/-- It is in the list. -/
def Known (t : Telegram) : Prop := (l.getAdapterByInterfaceIndex (arrivedOn t)).isSome

instance (t : Telegram) : Decidable (Known l t) := inferInstanceAs (Decidable (_ = true))

/-- What the handler should get of a datagram. -/
def delivered (t : Telegram) : Received α :=
  if min t.data.length len > 0 then
    ⟨(min t.data.length len : ℕ), t.data.take len,
      (l.getAdapterByInterfaceIndex (arrivedOn t)).map out,
      (MulticastServer.readControl 0 t.control).2⟩
  else ⟨0, t.data.take len, none, 1⟩

/-- The handler consumes the queue, and gets every datagram that arrived on a known interface, in
their order; and no datagram is consumed by a call with a negative result. -/
structure Drains (queue : List Telegram) : Prop where
  consumed : (drain out l len queue).2 = []
  got : ((queue.filter fun t => Known l t).map (delivered out l len)).Sublist
    (drain out l len queue).1
  negative : ((drain out l len queue).1.filter fun r => 0 ≤ r.nbytes).length +
    (drain out l len queue).2.length = queue.length

/-- The condition on a datagram: the interface is known, or nothing is received of it. -/
def Served (t : Telegram) : Prop := Known l t ∨ min t.data.length len = 0

end Receive

/-! ### One call -/

variable {α : Type*} {out : Netadapter → α} {l : NetadapterList} {len : ℕ} {t : Telegram}
  {queue : List Telegram}

variable (out queue) in
/-- The datagram is handed over. -/
lemma receiveTelegram_served (h : Served l len t) :
    receiveTelegram out l len (t :: queue) = (delivered out l len t, queue) := by
  by_cases hn : min t.data.length len > 0
  · have hknown : Known l t := h.resolve_right (by omega)
    obtain ⟨adapter, hadapter⟩ := Option.isSome_iff_exists.mp hknown
    have hpos : ((min t.data.length len : ℕ) : ℤ) > 0 := by omega
    simp only [arrivedOn] at hadapter
    simp only [receiveTelegram, receiveTelegramIndex, delivered, arrivedOn, if_pos hn, if_pos hpos,
      hadapter, Option.map_some]
  · have hzero : min t.data.length len = 0 := by omega
    simp [receiveTelegram, receiveTelegramIndex, delivered, hzero]

variable (out queue) in
/-- It is gone, and the result is negative. -/
lemma receiveTelegram_unknown (h : ¬ Served l len t) :
    (receiveTelegram out l len (t :: queue)).1.nbytes = -1 ∧
      (receiveTelegram out l len (t :: queue)).2 = queue := by
  obtain ⟨hknown, hn⟩ := not_or.mp h
  have hadapter : l.getAdapterByInterfaceIndex (arrivedOn t) = none :=
    Option.not_isSome_iff_eq_none.mp hknown
  have hmin : min t.data.length len > 0 := by omega
  have hpos : ((min t.data.length len : ℕ) : ℤ) > 0 := by omega
  simp only [arrivedOn] at hadapter
  simp only [receiveTelegram, receiveTelegramIndex, if_pos hmin, if_pos hpos, hadapter, and_self]

lemma delivered_nonneg (out : Netadapter → α) (l : NetadapterList) (len : ℕ) (t : Telegram) :
    0 ≤ (delivered out l len t).nbytes := by
  unfold delivered
  split
  · exact Int.natCast_nonneg _
  · exact Int.le_refl 0

lemma drain_served (h : Served l len t) : drain out l len (t :: queue) =
    (delivered out l len t :: (drain out l len queue).1, (drain out l len queue).2) := by
  have hnn := Int.not_lt.mpr (delivered_nonneg out l len t)
  simp only [drain, receiveTelegram_served out queue h, if_neg hnn]

variable (out queue) in
lemma drain_unknown (h : ¬ Served l len t) : ∃ r, r.nbytes = -1 ∧
    drain out l len (t :: queue) = ([r], queue) := by
  obtain ⟨hneg, hrest⟩ := receiveTelegram_unknown out queue h
  refine ⟨_, hneg, ?_⟩
  rw [drain, hrest, hneg]
  rfl

/-! ### The whole queue -/

/-- A datagram is consumed with a negative result exactly if it is not handed over. -/
lemma negative_iff (queue : List Telegram) :
    ((drain out l len queue).1.filter fun r => 0 ≤ r.nbytes).length +
      (drain out l len queue).2.length = queue.length ↔ ∀ t ∈ queue, Served l len t := by
  induction queue with
  | nil => exact iff_of_true rfl nofun
  | cons t queue ih =>
    rw [List.forall_mem_cons]
    by_cases h : Served l len t
    · rw [and_iff_right h, ← ih, drain_served h,
        List.filter_cons_of_pos (by simpa using delivered_nonneg out l len t)]
      simp only [List.length_cons]
      omega
    · obtain ⟨r, hneg, hd⟩ := drain_unknown out queue h
      refine iff_of_false (fun hcount => ?_) fun hall => h hall.1
      rw [hd, List.filter_cons_of_neg (by simp [hneg])] at hcount
      simp at hcount

variable (out) in
/-- The queue is consumed if no datagram but the last one ends the drain. -/
lemma consumed_iff (queue : List Telegram) :
    (drain out l len queue).2 = [] ↔ ∀ t ∈ queue.dropLast, Served l len t := by
  induction queue with
  | nil => exact iff_of_true rfl nofun
  | cons t queue ih =>
    by_cases h : Served l len t
    · rw [drain_served h, ih]
      cases queue with
      | nil => exact Iff.rfl
      | cons u queue => rw [List.dropLast_cons_cons, List.forall_mem_cons, and_iff_right h]
    · obtain ⟨r, hneg, hd⟩ := drain_unknown out queue h
      rw [hd]
      cases queue with
      | nil => exact iff_of_true rfl nofun
      | cons u queue =>
        refine iff_of_false nofun fun hall => h ?_
        rw [List.dropLast_cons_cons] at hall
        exact hall t List.mem_cons_self

/-- A handler that has consumed the queue has got what it should: the last datagram is the only
one that it may not have got. -/
lemma got_of_consumed (h : (drain out l len queue).2 = []) :
    ((queue.filter fun t => Known l t).map (delivered out l len)).Sublist
      (drain out l len queue).1 := by
  induction queue with
  | nil => exact List.nil_sublist _
  | cons t queue ih =>
    by_cases hs : Served l len t
    · rw [drain_served hs] at h ⊢
      by_cases hk : Known l t
      · rw [List.filter_cons_of_pos (by simpa using hk), List.map_cons]
        exact (ih h).cons_cons _
      · rw [List.filter_cons_of_neg (by simpa using hk)]
        exact (ih h).cons _
    · obtain ⟨r, hneg, hd⟩ := drain_unknown out queue hs
      rw [hd] at h ⊢
      have hnil : queue = [] := h
      subst hnil
      rw [List.filter_cons_of_neg (by simpa using fun hk => hs (.inl hk))]
      exact List.nil_sublist _

/-- The handler gets what it should exactly if every datagram but the last one is handed over. -/
theorem consumes_iff (out : Netadapter → α) (l : NetadapterList) (len : ℕ)
    (queue : List Telegram) :
    ((drain out l len queue).2 = [] ∧
      ((queue.filter fun t => Known l t).map (delivered out l len)).Sublist
        (drain out l len queue).1) ↔ ∀ t ∈ queue.dropLast, Served l len t := by
  rw [← consumed_iff out]
  exact and_iff_left_of_imp got_of_consumed

/-- **Unknown interfaces do not block the drain** exactly if nothing is received from any: the
handler gets the whole queue, and none of it with a negative result. -/
theorem drains_iff (out : Netadapter → α) (l : NetadapterList) (len : ℕ) (queue : List Telegram) :
    Drains out l len queue ↔ ∀ t ∈ queue, Served l len t := by
  constructor
  · exact fun h => (negative_iff queue).mp h.negative
  · intro h
    have hconsumed := (consumed_iff out queue).mpr fun t ht =>
      h t ((List.dropLast_sublist queue).subset ht)
    exact ⟨hconsumed, got_of_consumed hconsumed, (negative_iff queue).mpr h⟩

/-- One adapter, with index 2. -/
def eth0 : NetadapterList := ⟨[⟨2, ["10.0.0.1"]⟩], List.pairwise_singleton _ _⟩

/-- The first datagram arrives on an interface that is not in the list, the second one on the
adapter: it is left in the queue. -/
theorem blocked :
    (drain id eth0 1024 [⟨[1], [.pktinfo 3]⟩, ⟨[2], [.pktinfo 2]⟩]).2 = [⟨[2], [.pktinfo 2]⟩] ∧
    Known eth0 ⟨[2], [.pktinfo 2]⟩ ∧
    (receiveTelegramAdapter eth0 1024 [⟨[1], [.pktinfo 3]⟩]).1.nbytes = -1 ∧
    (receiveTelegramAdapter eth0 1024 [⟨[1], [.pktinfo 3]⟩]).2 = [] ∧
    ¬ ∀ l len queue, Drains (id : Netadapter → Netadapter) l len queue := by
  have hleft : (drain id eth0 1024 [⟨[1], [.pktinfo 3]⟩, ⟨[2], [.pktinfo 2]⟩]).2 =
      [⟨[2], [.pktinfo 2]⟩] := rfl
  refine ⟨hleft, by decide, rfl, rfl, fun h => ?_⟩
  have hconsumed := (h eth0 1024 [⟨[1], [.pktinfo 3]⟩, ⟨[2], [.pktinfo 2]⟩]).consumed
  rw [hleft] at hconsumed
  cases hconsumed

end Hbm.UnknownInterface
