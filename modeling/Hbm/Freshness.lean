import Hbm.EdgeContract
import Hbm.NetadapterList
import Hbm.NetlinkDecode

/-!
The adapter list follows the configuration of the interfaces.

The kernel announces every change on the netlink socket. `Netlink::process` takes one datagram, and
for each message of it updates the list and then calls the event handler. An update reads the
configuration first and enters it later; in between the configuration may change again, and other
threads may update the list too. The configurations are numbered in their order.
-/

namespace Hbm.Freshness

open Hbm.Netlink Hbm.NetlinkDecode Hbm.NetadapterList Hbm.Run
open Hbm.EdgeContract (Errno Outcome)

def maxDatagramSize : ℕ := 65536

/-- Where the thread of the event loop is. In `processNetlinkTelegram`: the number of the
configuration that the datagram tells of, what is still to be done, and the configuration that
`update` has read. -/
inductive Phase
  | off | waiting | serving
  | processing (tells : ℕ) (items : List Item) (read : Option ℕ)

/-- The configurations so far, the present one last; the datagrams that wait at the socket, each
with the configuration it tells of; the list, and the configuration that it shows. -/
structure St where
  configs : List (List Ifaddrs)
  bound : Bool
  queue : List (ℕ × List UInt8)
  edge : Bool
  phase : Phase
  m_adapters : Adapters
  shown : ℕ
  /-- what the updates in progress of other threads have read -/
  others : List ℕ

inductive Label
  | bind
  | start
  /-- `none` where the announcement is lost, because the socket has no room for it -/
  | change (config : List Ifaddrs) (datagram : Option (List UInt8))
  | report
  | receive (o : Outcome)
  | getifaddrs (ok : Bool)
  | enter
  | callback
  | ret
  | otherGetifaddrs
  | otherEnter (i : ℕ)

variable (sys : System)

/-- `m_adapters = adapterMap` in `update`. -/
def St.enters (s : St) (i : ℕ) : St :=
  { s with m_adapters := update sys s.m_adapters s.configs[i]?, shown := i }

/-- `process` on the first datagram: an empty one is not looked at. -/
def process (s : St) : Option St :=
  match s.queue with
  | [] => none
  | (tells, datagram) :: queue =>
    let readBuffer := datagram.take maxDatagramSize
    if readBuffer = [] then some { s with queue := queue, phase := .waiting }
    else
      match processNetlinkTelegram true readBuffer with
      | .ok items => some { s with queue := queue, phase := .processing tells items none }
      | .error _ => none

def step (s : St) : Label → Option St
  | .bind => some { s with bound := true }
  | .start =>
    match s.phase with
    | .off => if s.bound then some { s with phase := .serving } else none
    | _ => none
  | .change config datagram =>
    let s := { s with configs := s.configs ++ [config] }
    match datagram with
    | none => some s
    | some datagram =>
      -- nobody listens before the socket is bound
      if s.bound then
        some { s with queue := s.queue ++ [(s.configs.length - 1, datagram)], edge := true }
      else some s
  | .report =>
    match s.phase with
    | .waiting => if s.edge then some { s with edge := false, phase := .serving } else none
    | _ => none
  | .receive o =>
    match s.phase, o with
    | .serving, .success => process s
    | .serving, .error .again =>
      if s.queue.isEmpty then some { s with phase := .waiting } else none
    | .serving, .error _ => some { s with phase := .waiting }
    | _, _ => none
  | .getifaddrs ok =>
    match s.phase with
    | .processing tells (.update :: items) none =>
      some { s with phase :=
        if ok then .processing tells (.update :: items) (some (s.configs.length - 1))
        else .processing tells items none }
    | _ => none
  | .enter =>
    match s.phase with
    | .processing tells (.update :: items) (some i) =>
      some { s.enters sys i with phase := .processing tells items none }
    | _ => none
  | .callback =>
    match s.phase with
    | .processing tells (.event _ _ _ :: items) none =>
      some { s with phase := .processing tells items none }
    | _ => none
  | .ret =>
    match s.phase with
    | .processing _ [] none => some { s with phase := .serving }
    | _ => none
  | .otherGetifaddrs => some { s with others := s.others ++ [s.configs.length - 1] }
  | .otherEnter j =>
    match s.others[j]? with
    | some i => some { s.enters sys i with others := s.others.eraseIdx j }
    | none => none

/-- `NetadapterList` has been constructed. -/
def constructed (config : List Ifaddrs) : St :=
  ⟨[config], false, [], false, .off, update sys .empty (some config), 0, []⟩

/-- A datagram that announces something: the encoding of messages, the first of which is not an end
mark. -/
def Announces (datagram : List UInt8) : Prop :=
  ∃ m ms, datagram = encode (m :: ms) ∧ datagram.length ≤ maxDatagramSize ∧
    m.content.type ≠ nlmsgDone ∧ m.content.type ≠ nlmsgError

/-- The condition on the steps: every change is announced, no call of the system fails for good, and
no update enters a configuration that is older than the one shown. -/
def Proper (s : St) : Label → Prop
  | .change _ datagram => s.bound = true ∧ ∃ d, datagram = some d ∧ Announces d
  | .receive (.error e) => e = .again
  | .getifaddrs ok => ok = true
  | .enter => ∀ tells items i, s.phase = .processing tells items (some i) → s.shown ≤ i
  | .otherEnter j => ∀ i, s.others[j]? = some i → s.shown ≤ i
  | _ => True

/-- The configuration is the present one. -/
def Now (s : St) (i : ℕ) : Prop := i + 1 = s.configs.length

/-- The present configuration will be entered: it is announced, or an update is still to begin, or
one has read it. -/
inductive Coming (s : St) : Prop
  | announced (i : ℕ) (d : List UInt8) (now : Now s i) (mem : (i, d) ∈ s.queue)
      (seen : s.edge = true ∨ s.phase ≠ .waiting)
  | due (tells : ℕ) (items : List Item) (phase : s.phase = .processing tells items none)
      (mem : .update ∈ items)
  | read (tells : ℕ) (items : List Item) (i : ℕ) (now : Now s i)
      (phase : s.phase = .processing tells items (some i))

/-- Before the first event of a datagram is reported the list is updated. -/
def Ordered (s : St) (tells : ℕ) (items : List Item) (read : Option ℕ) : Prop :=
  tells < s.configs.length ∧ (tells ≤ s.shown ∨ items.head? = some .update) ∧
    ∀ i, read = some i → tells ≤ i ∧ i < s.configs.length ∧ items.head? = some .update

/-- The invariant. -/
structure Inv (s : St) : Prop where
  shown : s.shown < s.configs.length
  list : s.m_adapters = update sys .empty s.configs[s.shown]?
  queue : ∀ p ∈ s.queue, p.1 < s.configs.length ∧ Announces p.2
  others : ∀ i ∈ s.others, i < s.configs.length
  ordered : ∀ tells items read, s.phase = .processing tells items read →
    Ordered s tells items read
  cover : Now s s.shown ∨ Coming s

variable {sys : System} {s t : St} {l : Label}

/-! ### The steps -/

/-- What is decoded begins with an update. -/
lemma decoded {d : List UInt8} (h : Announces d) :
    d.take maxDatagramSize = d ∧ d ≠ [] ∧
      ∃ items, processNetlinkTelegram true d = .ok items ∧ items.head? = some .update := by
  obtain ⟨m, ms, rfl, hlen, hdone, herror⟩ := h
  have hpos : (encode (m :: ms)).length = m.encode.length + (encode ms).length := by
    rw [encode_cons, List.length_append]
  have hhead : 16 ≤ m.encode.length := by
    rw [m.length_encode]
    omega
  refine ⟨List.take_of_length_le hlen, fun hnil => ?_, reference (m :: ms), ?_, ?_⟩
  · rw [hnil, List.length_nil] at hpos
    omega
  · have hshort : (encode (m :: ms)).length < 2 ^ 31 := by
      unfold maxDatagramSize at hlen
      omega
    exact messages_encode _ _ (Nat.lt_succ_self _) hshort
  · unfold reference
    rw [if_neg (by simp [hdone, herror])]
    rfl

/-- The thread of the loop goes on; the socket and the list are as they were. -/
lemma Inv.phase (hi : Inv sys s) (p : Phase) (edge : Bool)
    (hordered : ∀ tells items read, p = .processing tells items read → Ordered s tells items read)
    (hcoming : Coming s → Now s s.shown ∨ Coming { s with edge := edge, phase := p }) :
    Inv sys { s with edge := edge, phase := p } := by
  refine ⟨hi.shown, hi.list, hi.queue, hi.others, hordered, ?_⟩
  rcases hi.cover with hnow | hcome
  · exact .inl hnow
  · exact hcoming hcome

lemma change_inv {config : List Ifaddrs} {d : List UInt8} (hi : Inv sys s) (hbound : s.bound = true)
    (hd : Announces d) (h : step sys s (.change config (some d)) = some t) : Inv sys t := by
  simp only [step, hbound, if_true, Option.some.injEq] at h
  subst h
  have hlen : (s.configs ++ [config]).length = s.configs.length + 1 := List.length_append
  refine ⟨?_, ?_, fun p hp => ?_, fun i hi' => ?_, fun tells items read hp => ?_, .inr ?_⟩
  · simp only [hlen]
    exact Nat.lt_succ_of_lt hi.shown
  · simp only [List.getElem?_append_left hi.shown]
    exact hi.list
  · simp only [hlen]
    rcases List.mem_append.mp hp with hp | hp
    · obtain ⟨hlt, hp⟩ := hi.queue p hp
      exact ⟨Nat.lt_succ_of_lt hlt, hp⟩
    · obtain rfl := List.mem_singleton.mp hp
      exact ⟨by simp only [hlen]; omega, hd⟩
  · simp only [hlen]
    exact Nat.lt_succ_of_lt (hi.others i hi')
  · obtain ⟨htells, hshown, hread⟩ := hi.ordered tells items read hp
    refine ⟨by simp only [hlen]; omega, hshown, fun i hi' => ?_⟩
    obtain ⟨hle, hlt, hhead⟩ := hread i hi'
    exact ⟨hle, by simp only [hlen]; omega, hhead⟩
  · refine .announced s.configs.length d ?_ ?_ (.inl rfl)
    · simp only [Now, hlen]
    · simp

lemma receive_inv {o : Outcome} (hi : Inv sys s) (hl : Proper s (.receive o))
    (h : step sys s (.receive o) = some t) : Inv sys t := by
  cases hphase : s.phase with
  | off | waiting | processing => simp [step, hphase] at h
  | serving =>
    cases o with
    | success =>
      simp only [step, hphase, process] at h
      cases hqueue : s.queue with
      | nil => simp [hqueue] at h
      | cons p queue =>
        obtain ⟨tells, d⟩ := p
        have hq := hi.queue
        rw [hqueue] at hq
        obtain ⟨htells, hd⟩ := hq (tells, d) List.mem_cons_self
        obtain ⟨htake, hne, items, hitems, hhead⟩ := decoded hd
        simp only [hqueue, htake, if_neg hne, hitems, Option.some.injEq] at h
        subst h
        refine ⟨hi.shown, hi.list, fun p hp => hq p (List.mem_cons_of_mem _ hp), hi.others, ?_, ?_⟩
        · intro tells' items' read hp
          cases hp
          exact ⟨htells, .inr hhead, nofun⟩
        · refine hi.cover.imp_right fun hcome => ?_
          cases hcome with
          | announced i d' now mem seen =>
            rw [hqueue] at mem
            rcases List.mem_cons.mp mem with heq | mem
            · exact .due tells items rfl (List.mem_of_mem_head? hhead)
            · exact .announced i d' now mem (.inr (by simp))
          | due _ _ hp => simp [hphase] at hp
          | read _ _ _ _ hp => simp [hphase] at hp
    | error e =>
      obtain rfl : e = .again := hl
      simp only [step, hphase] at h
      split at h
      · rename_i hempty
        cases h
        refine hi.phase .waiting s.edge nofun fun hcome => ?_
        cases hcome with
        | announced i d now mem =>
          rw [List.isEmpty_iff.mp hempty] at mem
          cases mem
        | due _ _ hp => simp [hphase] at hp
        | read _ _ _ _ hp => simp [hphase] at hp
      · cases h

lemma getifaddrs_inv {ok : Bool} (hi : Inv sys s) (hok : ok = true)
    (h : step sys s (.getifaddrs ok) = some t) : Inv sys t := by
  subst hok
  simp only [step] at h
  split at h
  · rename_i tells items hphase
    cases h
    have hlast : s.configs.length - 1 + 1 = s.configs.length := by
      have := hi.shown
      omega
    obtain ⟨htells, hshown, -⟩ := hi.ordered _ _ _ hphase
    refine hi.phase _ s.edge (fun tells' items' read hp => ?_) fun hcome => .inr ?_
    · cases hp
      refine ⟨htells, hshown, fun i hread => ?_⟩
      cases hread
      exact ⟨by omega, by omega, rfl⟩
    · cases hcome with
      | announced i d now mem => exact .announced i d now mem (.inr (by simp))
      | due => exact .read tells (.update :: items) _ hlast rfl
      | read _ _ _ _ hp => simp [hphase] at hp
  · cases h

lemma Coming.congr (h : Coming s) (hconfigs : t.configs = s.configs) (hqueue : t.queue = s.queue)
    (hedge : t.edge = s.edge) (hphase : t.phase = s.phase) : Coming t := by
  cases h with
  | announced i d now mem seen =>
    refine .announced i d ?_ ?_ ?_
    · rw [Now, hconfigs]
      exact now
    · rw [hqueue]
      exact mem
    · rw [hedge, hphase]
      exact seen
  | due tells items hp mem => exact .due tells items (hphase.trans hp) mem
  | read tells items i now hp =>
    refine .read tells items i ?_ (hphase.trans hp)
    rw [Now, hconfigs]
    exact now

/-- An update enters what it has read. -/
lemma enters_inv {i : ℕ} (hi : Inv sys s) (hlt : i < s.configs.length) (hle : s.shown ≤ i)
    {p : Phase} {others : List ℕ} (hothers : ∀ j ∈ others, j < s.configs.length)
    (hordered : ∀ tells items read, p = .processing tells items read →
      Ordered { s with shown := i } tells items read)
    (hcoming : Coming s → Now s i ∨ Coming { s.enters sys i with phase := p, others := others }) :
    Inv sys { s.enters sys i with phase := p, others := others } := by
  refine ⟨hlt, ?_, hi.queue, hothers, hordered, ?_⟩
  · simp only [St.enters, List.getElem?_eq_getElem hlt]
    rfl
  · rcases hi.cover with hnow | hcome
    · left
      unfold Now at hnow ⊢
      simp only [St.enters]
      omega
    · exact hcoming hcome

lemma enter_inv (hi : Inv sys s) (hl : Proper s .enter) (h : step sys s .enter = some t) :
    Inv sys t := by
  simp only [step] at h
  split at h
  · rename_i tells items i hphase
    cases h
    obtain ⟨htells, -, hread⟩ := hi.ordered _ _ _ hphase
    obtain ⟨hle, hlt, -⟩ := hread i rfl
    have hshown : s.shown ≤ i := hl _ _ _ hphase
    refine enters_inv hi hlt hshown hi.others (fun tells' items' read hp => ?_) fun hcome => ?_
    · cases hp
      exact ⟨htells, .inl hle, nofun⟩
    · cases hcome with
      | announced i' d now mem => exact .inr (.announced i' d now mem (.inr (by simp)))
      | due _ _ hp => simp [hphase] at hp
      | read _ _ _ now hp =>
        rw [hphase] at hp
        cases hp
        exact .inl now
  · cases h

lemma callback_inv (hi : Inv sys s) (h : step sys s .callback = some t) : Inv sys t := by
  simp only [step] at h
  split at h
  · rename_i tells event adapterIndex ipv4Address items hphase
    cases h
    obtain ⟨htells, hshown, -⟩ := hi.ordered _ _ _ hphase
    refine hi.phase _ s.edge (fun tells' items' read hp => ?_) fun hcome => .inr ?_
    · cases hp
      refine ⟨htells, .inl (hshown.resolve_right (by simp)), nofun⟩
    · cases hcome with
      | announced i d now mem => exact .announced i d now mem (.inr (by simp))
      | due _ _ hp mem =>
        rw [hphase] at hp
        cases hp
        exact .due tells items rfl (by simpa using mem)
      | read _ _ _ _ hp => simp [hphase] at hp
  · cases h

lemma ret_inv (hi : Inv sys s) (h : step sys s .ret = some t) : Inv sys t := by
  simp only [step] at h
  split at h
  · rename_i tells hphase
    cases h
    refine hi.phase .serving s.edge nofun fun hcome => .inr ?_
    cases hcome with
    | announced i d now mem => exact .announced i d now mem (.inr (by simp))
    | due _ _ hp mem =>
      rw [hphase] at hp
      cases hp
      cases mem
    | read _ _ _ _ hp => simp [hphase] at hp
  · cases h

/-- Nothing in hand is lost where the handler begins. -/
lemma serving_inv (hi : Inv sys s) (edge : Bool)
    (hphase : ∀ tells items read, s.phase ≠ .processing tells items read) :
    Inv sys { s with edge := edge, phase := .serving } := by
  refine hi.phase .serving edge nofun fun hcome => .inr ?_
  cases hcome with
  | announced i d now mem => exact .announced i d now mem (.inr (by simp))
  | due _ _ hp => exact absurd hp (hphase _ _ _)
  | read _ _ _ _ hp => exact absurd hp (hphase _ _ _)

lemma report_inv (hi : Inv sys s) (h : step sys s .report = some t) : Inv sys t := by
  simp only [step] at h
  split at h
  · rename_i hphase
    split at h
    · cases h
      exact serving_inv hi false (by simp [hphase])
    · cases h
  · cases h

lemma start_inv (hi : Inv sys s) (h : step sys s .start = some t) : Inv sys t := by
  simp only [step] at h
  split at h
  · rename_i hphase
    split at h
    · cases h
      exact serving_inv hi s.edge (by simp [hphase])
    · cases h
  · cases h

lemma otherEnter_inv {j : ℕ} (hi : Inv sys s) (hl : Proper s (.otherEnter j))
    (h : step sys s (.otherEnter j) = some t) : Inv sys t := by
  simp only [step] at h
  split at h
  · rename_i i hj
    cases h
    have hlt := hi.others i (List.mem_of_getElem? hj)
    have hshown : s.shown ≤ i := hl i hj
    refine enters_inv (p := s.phase) hi hlt hshown (fun k hk => ?_)
      (fun tells items read hp => ?_) fun hcome => ?_
    · exact hi.others k (List.mem_of_mem_eraseIdx hk)
    · obtain ⟨htells, hfirst, hread⟩ := hi.ordered tells items read hp
      exact ⟨htells, hfirst.imp_left fun hle => Nat.le_trans hle hshown, hread⟩
    · exact .inr (hcome.congr rfl rfl rfl rfl)
  · cases h

lemma step_inv (hi : Inv sys s) (hl : Proper s l) (h : step sys s l = some t) : Inv sys t := by
  cases l with
  | bind =>
    cases h
    refine ⟨hi.shown, hi.list, hi.queue, hi.others, hi.ordered, hi.cover.imp_right fun hcome => ?_⟩
    exact hcome.congr rfl rfl rfl rfl
  | start => exact start_inv hi h
  | change config datagram =>
    obtain ⟨hbound, d, rfl, hd⟩ := hl
    exact change_inv hi hbound hd h
  | report => exact report_inv hi h
  | receive o => exact receive_inv hi hl h
  | getifaddrs ok => exact getifaddrs_inv hi hl h
  | enter => exact enter_inv hi hl h
  | callback => exact callback_inv hi h
  | ret => exact ret_inv hi h
  | otherGetifaddrs =>
    cases h
    refine ⟨hi.shown, hi.list, hi.queue, fun i hmem => ?_, hi.ordered,
      hi.cover.imp_right fun hcome => hcome.congr rfl rfl rfl rfl⟩
    rcases List.mem_append.mp hmem with hmem | hmem
    · exact hi.others i hmem
    · obtain rfl := List.mem_singleton.mp hmem
      have := hi.shown
      simp only
      omega
  | otherEnter j => exact otherEnter_inv hi hl h

lemma constructed_inv (config : List Ifaddrs) : Inv sys (constructed sys config) :=
  ⟨Nat.one_pos, rfl, nofun, nofun, nofun, .inl rfl⟩

/-- The address 10.0.0.1 has come to interface 1. -/
def newAddress : Message :=
  ⟨0, 2, 0, .addr false ⟨2, 24, 0, 0, 1⟩ [⟨2, [10, 0, 0, 1], [], by decide, ⟨1, rfl⟩,
    Nat.succ_pos 3, fun _ => rfl⟩], 0, ⟨4, rfl⟩, Nat.succ_pos 3, Nat.zero_le _, nofun⟩

/-- The thread of the loop is in an update. -/
def Reading (s : St) : Prop := ∃ tells items i, s.phase = .processing tells items (some i)

/-- The condition on the steps without numbers: no update begins while another one is in
progress. -/
def Alone (s : St) : Label → Prop
  | .change _ datagram => s.bound = true ∧ ∃ d, datagram = some d ∧ Announces d
  | .receive (.error e) => e = .again
  | .getifaddrs ok => ok = true ∧ s.others = []
  | .otherGetifaddrs => s.others = [] ∧ ¬ Reading s
  | _ => True

/-- One update at most is in progress, and it has not read an older configuration than the one
shown. -/
structure Single (s : St) : Prop where
  shown : s.shown < s.configs.length
  others : s.others = [] ∨ ¬ Reading s ∧ ∃ i, s.others = [i] ∧ s.shown ≤ i ∧ i < s.configs.length
  reading : ∀ tells items i, s.phase = .processing tells items (some i) →
    s.shown ≤ i ∧ i < s.configs.length

lemma Single.proper (hs : Single s) (hl : Alone s l) : Proper s l := by
  cases l with
  | change config datagram => exact hl
  | receive o =>
    cases o with
    | success => trivial
    | error e => exact hl
  | getifaddrs ok => exact hl.1
  | enter => exact fun tells items i hp => (hs.reading tells items i hp).1
  | otherEnter j =>
    intro i hj
    rcases hs.others with hnone | ⟨-, k, hk, hle, -⟩
    · rw [hnone] at hj
      cases hj
    · rw [hk] at hj
      obtain ⟨-, rfl⟩ : j = 0 ∧ k = i := by
        cases j with
        | zero => exact ⟨rfl, by simpa using hj⟩
        | succ j => simp at hj
      exact hle
  | _ => trivial

/-- A thread of the loop that is not in an update. -/
lemma Single.phase (hs : Single s) {p : Phase} {queue : List (ℕ × List UInt8)} {edge : Bool}
    (hp : ∀ tells items i, p ≠ .processing tells items (some i)) :
    Single { s with queue := queue, edge := edge, phase := p } :=
  ⟨hs.shown, hs.others.imp_right fun ⟨_, h⟩ => ⟨fun ⟨_, _, _, heq⟩ => hp _ _ _ heq, h⟩,
    fun _ _ _ heq => absurd heq (hp _ _ _)⟩

lemma single_receive {o : Outcome} (hs : Single s) (h : step sys s (.receive o) = some t) :
    Single t := by
  simp only [step] at h
  split at h
  · unfold process at h
    split at h
    · cases h
    · simp only at h
      split at h
      · cases h
        exact hs.phase (by simp)
      · split at h
        · cases h
          exact hs.phase (by simp)
        · cases h
  · split at h
    · cases h
      exact hs.phase (by simp)
    · cases h
  · cases h
    exact hs.phase (by simp)
  · cases h

/-- An update of the loop begins: no other one is in progress. -/
lemma single_getifaddrs {ok : Bool} (hs : Single s) (hl : Alone s (.getifaddrs ok))
    (h : step sys s (.getifaddrs ok) = some t) : Single t := by
  simp only [step] at h
  split at h
  · obtain ⟨rfl, hnone⟩ := hl
    cases h
    refine ⟨hs.shown, .inl hnone, fun tells items i hp => ?_⟩
    cases hp
    exact ⟨Nat.le_sub_one_of_lt hs.shown, Nat.sub_lt (Nat.zero_lt_of_lt hs.shown) Nat.one_pos⟩
  · cases h

/-- An update of the loop ends. -/
lemma single_enter (hs : Single s) (h : step sys s .enter = some t) : Single t := by
  simp only [step] at h
  split at h
  · rename_i tells items i hphase
    cases h
    obtain ⟨-, hlt⟩ := hs.reading _ _ _ hphase
    have hnone : s.others = [] := hs.others.resolve_right fun hone => hone.1 ⟨_, _, _, hphase⟩
    exact ⟨hlt, .inl hnone, by simp⟩
  · cases h

lemma single_otherEnter {j : ℕ} (hs : Single s) (h : step sys s (.otherEnter j) = some t) :
    Single t := by
  simp only [step] at h
  split at h
  · rename_i i hj
    cases h
    rcases hs.others with hnone | ⟨hidle, k, hk, -, hlt⟩
    · rw [hnone] at hj
      cases hj
    · rw [hk] at hj
      obtain ⟨rfl, rfl⟩ : j = 0 ∧ k = i := by
        cases j with
        | zero => exact ⟨rfl, by simpa using hj⟩
        | succ j => simp at hj
      refine ⟨hlt, .inl (by simp [hk]), fun tells items i hp => ?_⟩
      exact absurd ⟨tells, items, i, hp⟩ hidle
  · cases h

lemma single_step (hs : Single s) (hl : Alone s l) (h : step sys s l = some t) : Single t := by
  cases l with
  | bind =>
    cases h
    exact ⟨hs.shown, hs.others, hs.reading⟩
  | change config datagram =>
    obtain ⟨hbound, d, rfl, -⟩ := hl
    simp only [step, hbound, if_true, Option.some.injEq] at h
    subst h
    have hlen : (s.configs ++ [config]).length = s.configs.length + 1 := List.length_append
    refine ⟨by simp only [hlen]; exact Nat.lt_succ_of_lt hs.shown, ?_, fun tells items i hp => ?_⟩
    · refine hs.others.imp_right fun ⟨hidle, i, hi, hle, hlt⟩ => ⟨hidle, i, hi, hle, ?_⟩
      simp only [hlen]
      exact Nat.lt_succ_of_lt hlt
    · obtain ⟨hle, hlt⟩ := hs.reading tells items i hp
      exact ⟨hle, by simp only [hlen]; exact Nat.lt_succ_of_lt hlt⟩
  | receive o => exact single_receive hs h
  | getifaddrs ok => exact single_getifaddrs hs hl h
  | enter => exact single_enter hs h
  | otherEnter j => exact single_otherEnter hs h
  | otherGetifaddrs =>
    cases h
    obtain ⟨hnone, hidle⟩ := hl
    have := hs.shown
    refine ⟨hs.shown, .inr ⟨hidle, _, by simp only [hnone]; rfl, ?_, ?_⟩, hs.reading⟩
    · simp only
      omega
    · simp only
      omega
  | start | report | callback | ret =>
    simp only [step] at h
    split at h
    · first
        | (split at h
           · cases h
             exact hs.phase (by simp)
           · cases h)
        | (cases h
           exact hs.phase (by simp))
    · cases h

/-- **Updates that do not overlap.** Where no update begins while another one is in progress, none
enters an older configuration than the one shown. -/
theorem proper_of_alone (config : List Ifaddrs) {ls : List Label}
    (hok : Meets (step sys) Alone (constructed sys config) ls) :
    Meets (step sys) Proper (constructed sys config) ls := by
  refine hok.imp (fun _ _ _ hs hl ht => single_step hs hl ht) (fun _ _ hs hl => hs.proper hl) ?_
  exact ⟨Nat.one_pos, .inl rfl, nofun⟩

end Hbm.Freshness
