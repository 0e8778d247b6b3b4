import Hbm.Run

/-!
`Netlink` on Windows: one request for a notification after the other.

`NotifyAddrChange` completes with the first change of the addresses after it; changes while no
request is pending are not reported. `process` updates the list, tells the event handler, and orders
the next notification. An update that cannot read the adapters leaves the list as it is. The
configurations of the interfaces are numbered in their order.
-/

namespace Hbm.WindowsNetlink

open Hbm.Run

variable {Config Adapters : Type*} (update : Config → Adapters)

/-- Where `start`, or `process` in the thread of the event loop, is; `update` has read a
configuration and enters it later. -/
inductive Phase
  | off
  | starting | adding | waiting
  | updating (read : Option ℕ)
  | reporting | ordering
deriving DecidableEq

/-- The configurations so far, the present one last; the list, and the configuration that it shows;
those that the list showed at the calls of the event handler with `COMPLETE`. -/
structure St (Config Adapters : Type*) where
  configs : List Config
  phase : Phase
  /-- `overlapped.Internal` is `STATUS_PENDING` -/
  pending : Bool
  /-- the handle belongs to the completion port -/
  associated : Bool
  packets : ℕ
  m_adapters : Adapters
  shown : ℕ
  reported : List ℕ
  /-- the configuration when the last notification was ordered -/
  ordered : ℕ

inductive Label (Config : Type*)
  | change (config : Config)
  | start (handler : Bool)
  /-- `NotifyAddrChange`, if it is called -/
  | order (ok : Bool)
  | addEvent
  | dequeue
  /-- `GetAdaptersInfo` -/
  | read (ok : Bool)
  | enter
  | callback (handler : Bool)

def St.present (s : St Config Adapters) : ℕ := s.configs.length - 1

/-- A request that is pending completes; there is a packet if the port knows the handle. -/
def St.change (s : St Config Adapters) (config : Config) : St Config Adapters :=
  { s with
    configs := s.configs ++ [config]
    pending := false
    packets := if s.pending && s.associated then s.packets + 1 else s.packets }

def St.orderNextEvent (s : St Config Adapters) (ok : Bool) : St Config Adapters :=
  if s.pending then s else if ok then { s with pending := true, ordered := s.present } else s

def St.report (s : St Config Adapters) (handler : Bool) : St Config Adapters :=
  if handler then { s with reported := s.reported ++ [s.shown] } else s

def step (s : St Config Adapters) : Label Config → Option (St Config Adapters)
  | .change config => some (s.change config)
  | .start handler =>
    match s.phase with
    | .off => some { s.report handler with phase := .starting }
    | _ => none
  | .order ok =>
    match s.phase with
    | .starting => some { s.orderNextEvent ok with phase := .adding }
    | .ordering => some { s.orderNextEvent ok with phase := .waiting }
    | _ => none
  | .addEvent =>
    match s.phase with
    | .adding => some { s with associated := true, phase := .waiting }
    | _ => none
  | .dequeue =>
    match s.phase with
    | .waiting =>
      if s.packets = 0 then none
      else some { s with packets := s.packets - 1, phase := .updating none }
    | _ => none
  | .read ok =>
    match s.phase with
    | .updating none =>
      some { s with phase := if ok then .updating (some s.present) else .reporting }
    | _ => none
  | .enter =>
    match s.phase with
    | .updating (some i) =>
      match s.configs[i]? with
      | some config =>
        some { s with m_adapters := update config, shown := i, phase := .reporting }
      | none => none
    | _ => none
  | .callback handler =>
    match s.phase with
    | .reporting => some { s.report handler with phase := .ordering }
    | _ => none

/-- `NetadapterList` has been constructed, and has read the adapters. -/
def constructed (config : Config) : St Config Adapters :=
  ⟨[config], .off, false, false, 0, update config, 0, [], 0⟩

/-- The condition on the steps: the notifications can be ordered, there is an event handler, and no
change comes in `start` between the order and the port's knowing of the handle. -/
def Proper (s : St Config Adapters) : Label Config → Prop
  | .change _ => s.phase ≠ .adding
  | .start handler | .callback handler => handler = true
  | .order ok => ok = true
  | _ => True

/-! ### What holds in each phase -/

/-- The event handler was called with the list as it is. -/
def Told (s : St Config Adapters) : Prop := s.reported.getLast? = some s.shown

def Unordered (s : St Config Adapters) : Prop := s.pending = false ∧ s.packets = 0

/-- Nothing has changed since the notification was ordered. -/
def Ordered (s : St Config Adapters) : Prop :=
  s.pending = true ∧ s.packets = 0 ∧ s.present = s.ordered

def At (s : St Config Adapters) : Phase → Prop
  | .off => s.associated = false ∧ Unordered s
  | .starting => s.associated = false ∧ Unordered s ∧ Told s
  | .adding => s.associated = false ∧ Ordered s ∧ Told s
  | .waiting =>
    s.associated = true ∧ (Ordered s ∨ s.pending = false ∧ s.packets = 1) ∧ Told s
  | .updating read => s.associated = true ∧ Unordered s ∧ ∀ i ∈ read, i < s.configs.length
  | .reporting => s.associated = true ∧ Unordered s
  | .ordering => s.associated = true ∧ Unordered s ∧ Told s

structure Inv (s : St Config Adapters) : Prop where
  at_phase : At s s.phase
  nonempty : s.configs ≠ []
  shown : ∃ config, s.configs[s.shown]? = some config ∧ s.m_adapters = update config

variable {update} {s t : St Config Adapters} {l : Label Config}

lemma told_report : Told (s.report true) := List.getLast?_concat ..

lemma unordered_change {config : Config} (h : Unordered s) : Unordered (s.change config) :=
  ⟨rfl, by simp [St.change, h.1, h.2]⟩

lemma Inv.change {config : Config} (hi : Inv update s) (hphase : s.phase ≠ .adding) :
    Inv update (s.change config) := by
  obtain ⟨hat, hne, shown, hshown, hadapters⟩ := hi
  have hlt : s.shown < s.configs.length := (List.getElem?_eq_some_iff.mp hshown).1
  refine ⟨?_, List.append_ne_nil_of_left_ne_nil hne _, shown,
    (List.getElem?_append_left hlt).trans hshown, hadapters⟩
  change At (s.change config) s.phase
  cases hp : s.phase with
  | adding => exact absurd hp hphase
  | off =>
    rw [hp] at hat
    exact ⟨hat.1, unordered_change hat.2⟩
  | starting =>
    rw [hp] at hat
    exact ⟨hat.1, unordered_change hat.2.1, hat.2.2⟩
  | waiting =>
    rw [hp] at hat
    obtain ⟨hassociated, hrequest, htold⟩ := hat
    refine ⟨hassociated, .inr ⟨rfl, ?_⟩, htold⟩
    rcases hrequest with ⟨hpending, hpackets, -⟩ | ⟨hpending, hpackets⟩
    · simp [St.change, hassociated, hpending, hpackets]
    · simp [St.change, hpending, hpackets]
  | updating read =>
    rw [hp] at hat
    refine ⟨hat.1, unordered_change hat.2.1, fun i hi => ?_⟩
    rw [St.change, List.length_append]
    exact Nat.lt_add_right _ (hat.2.2 i hi)
  | reporting =>
    rw [hp] at hat
    exact ⟨hat.1, unordered_change hat.2⟩
  | ordering =>
    rw [hp] at hat
    exact ⟨hat.1, unordered_change hat.2.1, hat.2.2⟩

lemma orderNextEvent_eq (h : Unordered s) :
    s.orderNextEvent true = { s with pending := true, ordered := s.present } := by
  simp [St.orderNextEvent, h.1]

variable (update) in
/-- The steps that the condition allows, each with the phase it begins in. -/
inductive Moves (s : St Config Adapters) : Label Config → St Config Adapters → Prop
  | change {config : Config} (hphase : s.phase ≠ .adding) :
    Moves s (.change config) (s.change config)
  | start (hphase : s.phase = .off) :
    Moves s (.start true) { s.report true with phase := .starting }
  | order (hphase : s.phase = .starting) :
    Moves s (.order true) { s.orderNextEvent true with phase := .adding }
  | orderAgain (hphase : s.phase = .ordering) :
    Moves s (.order true) { s.orderNextEvent true with phase := .waiting }
  | addEvent (hphase : s.phase = .adding) :
    Moves s .addEvent { s with associated := true, phase := .waiting }
  | dequeue (hphase : s.phase = .waiting) (hpackets : s.packets ≠ 0) :
    Moves s .dequeue { s with packets := s.packets - 1, phase := .updating none }
  | read (hphase : s.phase = .updating none) :
    Moves s (.read true) { s with phase := .updating (some s.present) }
  | unread (hphase : s.phase = .updating none) :
    Moves s (.read false) { s with phase := .reporting }
  | enter {i : ℕ} {config : Config} (hphase : s.phase = .updating (some i))
      (hconfig : s.configs[i]? = some config) :
    Moves s .enter { s with m_adapters := update config, shown := i, phase := .reporting }
  | callback (hphase : s.phase = .reporting) :
    Moves s (.callback true) { s.report true with phase := .ordering }

lemma moves_of_step (hl : Proper s l) (h : step update s l = some t) : Moves update s l t := by
  cases l with
  | change config =>
    cases h
    exact .change hl
  | start handler =>
    obtain rfl : handler = true := hl
    simp only [step] at h
    split at h
    · rename_i hphase
      cases h
      exact .start hphase
    · cases h
  | order ok =>
    obtain rfl : ok = true := hl
    simp only [step] at h
    split at h
    · rename_i hphase
      cases h
      exact .order hphase
    · rename_i hphase
      cases h
      exact .orderAgain hphase
    · cases h
  | addEvent =>
    simp only [step] at h
    split at h
    · rename_i hphase
      cases h
      exact .addEvent hphase
    · cases h
  | dequeue =>
    simp only [step] at h
    split at h
    · rename_i hphase
      split_ifs at h with hpackets
      cases h
      exact .dequeue hphase hpackets
    · cases h
  | read ok =>
    simp only [step] at h
    split at h
    · rename_i hphase
      cases h
      cases ok with
      | true => exact .read hphase
      | false => exact .unread hphase
    · cases h
  | enter =>
    simp only [step] at h
    split at h
    · rename_i i hphase
      split at h
      · rename_i config hconfig
        cases h
        exact .enter hphase hconfig
      · cases h
    · cases h
  | callback handler =>
    obtain rfl : handler = true := hl
    simp only [step] at h
    split at h
    · rename_i hphase
      cases h
      exact .callback hphase
    · cases h

lemma step_inv (hi : Inv update s) (hl : Proper s l) (h : step update s l = some t) :
    Inv update t := by
  obtain ⟨hat, hne, hshown⟩ := id hi
  cases moves_of_step hl h with
  | change hphase => exact hi.change hphase
  | start hphase =>
    rw [hphase] at hat
    exact ⟨⟨hat.1, hat.2, told_report⟩, hne, hshown⟩
  | order hphase =>
    rw [hphase] at hat
    rw [orderNextEvent_eq hat.2.1]
    exact ⟨⟨hat.1, ⟨rfl, hat.2.1.2, rfl⟩, hat.2.2⟩, hne, hshown⟩
  | orderAgain hphase =>
    rw [hphase] at hat
    rw [orderNextEvent_eq hat.2.1]
    exact ⟨⟨hat.1, .inl ⟨rfl, hat.2.1.2, rfl⟩, hat.2.2⟩, hne, hshown⟩
  | addEvent hphase =>
    rw [hphase] at hat
    exact ⟨⟨rfl, .inl hat.2.1, hat.2.2⟩, hne, hshown⟩
  | dequeue hphase hnone =>
    rw [hphase] at hat
    obtain ⟨hassociated, ⟨-, hpackets, -⟩ | ⟨hpending, hpackets⟩, -⟩ := hat
    · exact absurd hpackets hnone
    · exact ⟨⟨hassociated, ⟨hpending, by simp [hpackets]⟩, nofun⟩, hne, hshown⟩
  | read hphase =>
    rw [hphase] at hat
    refine ⟨⟨hat.1, hat.2.1, fun i hi => ?_⟩, hne, hshown⟩
    obtain rfl := Option.some.inj hi
    exact Nat.sub_lt (List.length_pos_iff.mpr hne) Nat.one_pos
  | unread hphase =>
    rw [hphase] at hat
    exact ⟨⟨hat.1, hat.2.1⟩, hne, hshown⟩
  | @enter i config hphase hconfig =>
    rw [hphase] at hat
    exact ⟨⟨hat.1, hat.2.1⟩, hne, config, hconfig, rfl⟩
  | callback hphase =>
    rw [hphase] at hat
    exact ⟨⟨hat.1, hat.2, told_report⟩, hne, hshown⟩

lemma constructed_inv (config : Config) : Inv update (constructed update config) :=
  ⟨⟨rfl, rfl, rfl⟩, List.cons_ne_nil _ _, config, rfl, rfl⟩

/-! ### Runs -/

lemma inv_of_run {config : Config} {ls : List (Label Config)}
    (h : run (step update) (constructed update config) ls = some s)
    (hok : Meets (step update) Proper (constructed update config) ls) : Inv update s :=
  run_inv_of_meets (fun _ _ _ hu hl ht => step_inv hu hl ht) (constructed_inv config) hok h

/-- Changes come only while the loop waits, and the adapters can be read. -/
def Calm (s : St Config Adapters) (l : Label Config) : Prop :=
  Proper s l ∧ match l with
    | .change _ => s.phase = .waiting
    | .read ok => ok = true
    | _ => True

/-- The list is that of the present configuration, unless it is about to be read. -/
def Current (s : St Config Adapters) : Phase → Prop
  | .waiting => s.packets = 0 → s.shown = s.present
  | .updating none => True
  | .updating (some i) => i = s.present
  | _ => s.shown = s.present

lemma step_current (hi : Inv update s) (hc : Current s s.phase) (hl : Calm s l)
    (h : step update s l = some t) : Current t t.phase := by
  obtain ⟨hproper, hcalm⟩ := hl
  have hat := hi.at_phase
  cases moves_of_step hproper h with
  | @change config =>
    have hphase : s.phase = .waiting := hcalm
    change Current (s.change config) s.phase
    rw [hphase] at hat ⊢
    obtain ⟨hassociated, hrequest, -⟩ := hat
    -- there is a packet, so that nothing has to be shown
    intro hnone
    rcases hrequest with ⟨hpending, hpackets, -⟩ | ⟨hpending, hpackets⟩
    · simp [St.change, hassociated, hpending] at hnone
    · simp [St.change, hpending, hpackets] at hnone
  | start hphase =>
    rw [hphase] at hc
    exact hc
  | order hphase =>
    rw [hphase] at hc hat
    rw [orderNextEvent_eq hat.2.1]
    exact hc
  | orderAgain hphase =>
    rw [hphase] at hc hat
    rw [orderNextEvent_eq hat.2.1]
    exact fun _ => hc
  | addEvent hphase =>
    rw [hphase] at hc
    exact fun _ => hc
  | dequeue => trivial
  | read => rfl
  | unread => cases hcalm
  | enter hphase =>
    rw [hphase] at hc
    exact hc
  | callback hphase =>
    rw [hphase] at hc
    exact hc

/-- **The list is current.** If changes come only while the loop waits, and the adapters can be
read, then whenever it waits and no packet is there, the list is that of the present configuration,
and so is the last one that the event handler was called with. -/
theorem list_current {config : Config} {ls : List (Label Config)}
    (h : run (step update) (constructed update config) ls = some s)
    (hok : Meets (step update) Calm (constructed update config) ls)
    (hwaiting : s.phase = .waiting) (hquiet : s.packets = 0) :
    s.reported.getLast? = some s.present ∧
      ∃ config, s.configs.getLast? = some config ∧ s.m_adapters = update config := by
  have hall : Inv update s ∧ Current s s.phase :=
    run_inv_of_meets (I := fun u => Inv update u ∧ Current u u.phase)
      (fun _ _ _ hu hl ht => ⟨step_inv hu.1 hl.1 ht, step_current hu.1 hu.2 hl ht⟩)
      ⟨constructed_inv config, rfl⟩ hok h
  obtain ⟨⟨hat, -, hshown⟩, hcurrent⟩ := hall
  rw [hwaiting] at hat hcurrent
  have heq := hcurrent hquiet
  rw [heq, St.present, ← List.getLast?_eq_getElem?] at hshown
  exact ⟨heq ▸ hat.2.2, hshown⟩

/-- Here the second change comes while the loop waits. -/
def changesInTurn : List (Label ℕ) :=
  [.start true, .order true, .addEvent, .change 5, .change 6, .dequeue, .read true, .enter,
    .callback true, .order true]

theorem list_current_changesInTurn :
    ∃ s, run (step id) (constructed id 4) changesInTurn = some s ∧
      s.reported.getLast? = some 2 ∧ s.m_adapters = 6 := by
  have hok : Meets (step id) Calm (constructed id 4) changesInTurn := by
    refine meets_step ⟨rfl, trivial⟩ rfl <| meets_step ⟨rfl, trivial⟩ rfl <|
      meets_step ⟨trivial, trivial⟩ rfl <| meets_step ⟨fun h => (nomatch h), rfl⟩ rfl <|
      meets_step ⟨fun h => (nomatch h), rfl⟩ rfl <| meets_step ⟨trivial, trivial⟩ rfl <|
      meets_step ⟨trivial, rfl⟩ rfl <| meets_step ⟨trivial, trivial⟩ rfl <|
      meets_step ⟨rfl, trivial⟩ rfl <| meets_step ⟨rfl, trivial⟩ rfl trivial
  obtain ⟨hreported, config, hconfig, hadapters⟩ := list_current rfl hok rfl rfl
  refine ⟨_, rfl, hreported, ?_⟩
  rw [hadapters]
  exact (Option.some.inj hconfig).symm

end Hbm.WindowsNetlink
