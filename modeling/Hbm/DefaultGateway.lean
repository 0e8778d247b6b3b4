import Hbm.Dotted
import Hbm.Loop
import Hbm.Scanf

/-!
`Netadapter::getIpv4DefaultGateway`.

After the first line the file is scanned record by record. What a call of `fscanf` leaves unassigned
has no value: the variables are declared inside the loop. Still they are looked at in every turn.
-/

namespace Hbm.DefaultGateway

open Hbm.Size Hbm.Split Hbm.Strtoul Hbm.Dotted Hbm.Scanf

def newline : Char := Char.ofNat 10

/-- `"%*[^\n]\n"` -/
def firstLine : List Directive := [.skipTo newline, .space]

/-- `"%63s%8lx%8lx%8X%8d%8d%8d%8lx%8d%8d%8d\n"` -/
def record : List Directive :=
  [.string 63, .number 16 8, .number 16 8, .number 16 8, .number 10 8, .number 10 8, .number 10 8,
    .number 16 8, .number 10 8, .number 10 8, .number 10 8, .space]

/-- The variables of a turn that decide. -/
structure Vars where
  destination : ℕ
  gateway : ℕ
  flags : BitVec 32

def ROUTE_GW : BitVec 32 := 0x0002
def ROUTE_UP : BitVec 32 := 0x0001
def INADDR_ANY : ℕ := 0

/-- A number in an `unsigned long`. -/
def toUlong : Value → ℕ
  | .num negative n => if negative then sub 0 n else n
  | .text _ => 0

/-- The call assigns the variables from the left. -/
def assign (stale : Vars) (values : List Value) : Vars where
  destination := (values[1]?.map toUlong).getD stale.destination
  gateway := (values[2]?.map toUlong).getD stale.gateway
  flags := (values[3]?.map fun v => BitVec.ofNat 32 (toUlong v)).getD stale.flags

/-- What is asked of a route: it goes over a gateway, it is up, and it leads everywhere. -/
def Chosen (v : Vars) : Prop :=
  v.flags &&& ROUTE_GW ≠ 0 ∧ v.flags &&& ROUTE_UP ≠ 0 ∧ v.destination = INADDR_ANY

instance (v : Vars) : Decidable (Chosen v) := inferInstanceAs (Decidable (_ ∧ _ ∧ _))

/-- The gateway that is returned, and what the call before has assigned. -/
structure Decision where
  values : List Value
  gateway : ℕ

/-- One turn; `stale` is what the variables of each turn hold before. The result is `none` at the
end of the file. -/
def scanBody (stale : ℕ → Vars) : ℕ × List Char → (ℕ × List Char) ⊕ Option Decision
  | (turn, fp) =>
    let result := fscanf record fp
    if result.ret ≠ 11 ∧ result.ret < 0 ∧ result.feof then .inr none
    else
      let v := assign (stale turn) result.values
      if Chosen v then .inr (some ⟨result.values, v.gateway⟩) else .inl (turn + 1, result.rest)

/-- The whole loop. A turn for every character of the file is enough. -/
def scanLoop (stale : ℕ → Vars) (fp : List Char) : Option (Option Decision) :=
  Loop.run (scanBody stale) (fp.length + 1) (0, fp)

/-- `inet_ntoa`: the bytes as they are in memory, where the lowest comes first. -/
def inNtoa (s_addr : BitVec 32) : List Char :=
  ['.'].intercalate ((bytes s_addr).reverse.map to_string)

/-- `fp` is the content of `/proc/net/route`, or `none` where it cannot be opened. -/
def getIpv4DefaultGateway (stale : ℕ → Vars) (fp : Option (List Char)) : Option (List Char) :=
  match fp with
  | none => some []
  | some content =>
    if (fscanf firstLine content).ret < 0 then some []
    else (scanLoop stale (fscanf firstLine content).rest).map fun
      | some d => inNtoa (BitVec.ofNat 32 d.gateway)
      | none => []

/-! ### The calls -/

/-- What the calls assign, one after the other, up to the end of the file. -/
def callsFrom : ℕ → List Char → List (List Value)
  | 0, _ => []
  | n + 1, fp =>
    let result := fscanf record fp
    if result.ret < 0 ∧ result.feof then [] else result.values :: callsFrom n result.rest

def calls (fp : List Char) : List (List Value) := callsFrom (fp.length + 1) fp

/-- The decision for what the calls assign. -/
def judge (stale : ℕ → Vars) : ℕ → List (List Value) → Option Decision
  | _, [] => none
  | turn, values :: rest =>
    let v := assign (stale turn) values
    if Chosen v then some ⟨values, v.gateway⟩ else judge stale (turn + 1) rest

variable {stale stale' : ℕ → Vars} {fp : List Char} {turn n : ℕ} {values : List Value}
  {all : List (List Value)}

/-- Every turn takes something, or ends the loop. -/
lemma run_scanBody (h : fp.length < n) :
    Loop.run (scanBody stale) n (turn, fp) = some (judge stale turn (callsFrom n fp)) := by
  induction n generalizing turn fp with
  | zero => omega
  | succ n ih =>
    rcases fscanf_string (by decide : 0 < 63) record.tail fp with ⟨hret, hfeof⟩ | ⟨hret, hlt⟩
    · have hend : (fscanf record fp).ret < 0 ∧ (fscanf record fp).feof := ⟨hret, hfeof⟩
      have hne : (fscanf record fp).ret ≠ 11 := by omega
      have hbody : scanBody stale (turn, fp) = .inr none := if_pos ⟨hne, hend⟩
      rw [Loop.run_inr hbody, callsFrom, if_pos hend, judge]
    · have hgo : ¬ ((fscanf record fp).ret < 0 ∧ (fscanf record fp).feof) :=
        fun hend => absurd hend.1 (Int.not_lt.mpr hret)
      have hgo' : ¬ ((fscanf record fp).ret ≠ 11 ∧ (fscanf record fp).ret < 0 ∧
          (fscanf record fp).feof) := fun hend => hgo hend.2
      have hrest : (fscanf record fp).rest.length < n := Nat.lt_of_lt_of_le hlt (by omega)
      rw [callsFrom, if_neg hgo, judge]
      by_cases hchosen : Chosen (assign (stale turn) (fscanf record fp).values)
      · have hbody : scanBody stale (turn, fp) =
            .inr (some ⟨_, (assign (stale turn) (fscanf record fp).values).gateway⟩) :=
          (if_neg hgo').trans (if_pos hchosen)
        rw [Loop.run_inr hbody, if_pos hchosen]
      · have hbody : scanBody stale (turn, fp) = .inl (turn + 1, (fscanf record fp).rest) :=
          (if_neg hgo').trans (if_neg hchosen)
        rw [Loop.run_inl hbody, if_neg hchosen]
        exact ih hrest

/-- The loop ends, with the decision for the calls. -/
lemma scanLoop_eq (stale : ℕ → Vars) (fp : List Char) :
    scanLoop stale fp = some (judge stale 0 (calls fp)) := run_scanBody (Nat.lt_succ_self _)

/-! ### Values that are left over -/

/-- A call that assigns all that decides, and a route that is chosen. -/
def Selects (values : List Value) : Prop :=
  4 ≤ values.length ∧ Chosen (assign ⟨0, 0, 0⟩ values)

instance (values : List Value) : Decidable (Selects values) := inferInstanceAs (Decidable (_ ∧ _))

/-- The call assigns the destination, the gateway and the flags, or at least a destination that is
not chosen. -/
def Harmless (values : List Value) : Prop :=
  4 ≤ values.length ∨ ∃ v ∈ values[1]?, toUlong v ≠ INADDR_ANY

/-- What the scan of the first line leaves. -/
def afterFirstLine (content : List Char) : List Char := (fscanf firstLine content).rest

/-- The loop ends; a gateway is returned only if the same call assigned all that decides, and no
other value takes part. -/
structure Safe (content : List Char) : Prop where
  ends : ∀ stale, (getIpv4DefaultGateway stale (some content)).isSome
  together : ∀ stale d, scanLoop stale (afterFirstLine content) = some (some d) →
    4 ≤ d.values.length
  alone : ∀ stale stale', getIpv4DefaultGateway stale (some content) =
    getIpv4DefaultGateway stale' (some content)

/-- A whole call leaves nothing of what was there before. -/
lemma assign_eq (h : 4 ≤ values.length) (v v' : Vars) : assign v values = assign v' values := by
  match values, h with
  | _ :: _ :: _ :: _ :: _, _ => rfl

/-- A call that is harmless chooses only if it selects. -/
lemma Harmless.chosen_iff (h : Harmless values) (v : Vars) :
    Chosen (assign v values) ↔ Selects values := by
  by_cases hlen : 4 ≤ values.length
  · rw [Selects, assign_eq hlen v ⟨0, 0, 0⟩, and_iff_right hlen]
  · obtain ⟨w, hw, hne⟩ := h.resolve_left hlen
    refine iff_of_false (fun hchosen => hne ?_) fun hselects => hlen hselects.1
    have hdest : (assign v values).destination = toUlong w := by
      rw [assign, Option.mem_def.mp hw, Option.map_some, Option.getD_some]
    exact hdest.symm.trans hchosen.2.2

/-- Up to the call that selects, all calls are harmless. -/
def AllHarmless (all : List (List Value)) : Prop :=
  ∀ values ∈ all.takeWhile fun values => ¬ Selects values, Harmless values

lemma allHarmless_cons : AllHarmless (values :: all) ↔
    Selects values ∨ Harmless values ∧ AllHarmless all := by
  by_cases h : Selects values
  · simp [AllHarmless, h]
  · simp [AllHarmless, h]

/-- The first call that selects decides. -/
lemma judge_of_allHarmless (h : AllHarmless all) : judge stale turn all =
    (all.find? (Selects ·)).map fun values => ⟨values, (assign ⟨0, 0, 0⟩ values).gateway⟩ := by
  induction all generalizing turn with
  | nil => rfl
  | cons values all ih =>
    rw [judge, List.find?_cons]
    by_cases hselects : Selects values
    · rw [assign_eq hselects.1 (stale turn) ⟨0, 0, 0⟩, if_pos hselects.2, decide_eq_true hselects,
        Option.map_some]
    · obtain ⟨hharmless, hall⟩ := (allHarmless_cons.mp h).resolve_left hselects
      rw [if_neg (mt (hharmless.chosen_iff _).mp hselects), decide_eq_false hselects]
      exact ih hall

/-- With this left over, a call that assigns too little is taken for a route. -/
def leftover : Vars := ⟨INADDR_ANY, 0, ROUTE_GW ||| ROUTE_UP⟩

lemma chosen_leftover (h : ¬ Harmless values) : Chosen (assign leftover values) := by
  rw [Harmless, not_or] at h
  obtain ⟨hlen, hdest⟩ := h
  have hnone : values[3]? = none := List.getElem?_eq_none (by omega)
  have hflags : (assign leftover values).flags = ROUTE_GW ||| ROUTE_UP := by
    rw [assign, hnone]
    rfl
  refine ⟨?_, ?_, ?_⟩
  · rw [hflags]
    decide
  · rw [hflags]
    decide
  · rw [assign]
    cases hvalue : values[1]? with
    | none => rfl
    | some v => exact not_not.mp fun hne => hdest ⟨v, hvalue, hne⟩

lemma allHarmless_of_judge
    (h : ∀ d, judge (fun _ => leftover) turn all = some d → 4 ≤ d.values.length) :
    AllHarmless all := by
  induction all generalizing turn with
  | nil => simp [AllHarmless]
  | cons values all ih =>
    rw [allHarmless_cons, or_iff_not_imp_left]
    intro hselects
    simp only [judge] at h
    have hharmless : Harmless values := by
      by_contra hno
      rw [if_pos (chosen_leftover hno)] at h
      exact hno (.inl (h _ rfl))
    rw [if_neg (mt (hharmless.chosen_iff _).mp hselects)] at h
    exact ⟨hharmless, ih h⟩

/-- The result for the calls. -/
lemma getIpv4DefaultGateway_eq (stale : ℕ → Vars) (content : List Char) :
    getIpv4DefaultGateway stale (some content) =
      if (fscanf firstLine content).ret < 0 then some []
      else some (((judge stale 0 (calls (afterFirstLine content))).map fun d =>
        inNtoa (BitVec.ofNat 32 d.gateway)).getD []) := by
  rw [getIpv4DefaultGateway, ← afterFirstLine, scanLoop_eq]
  cases judge stale 0 (calls (afterFirstLine content)) <;> rfl

/-- **Malformed lines do no harm** exactly if every call up to the one that selects a route assigns
all that decides, or a destination that is not chosen. -/
theorem safe_iff (content : List Char) :
    Safe content ↔ AllHarmless (calls (afterFirstLine content)) := by
  constructor
  · intro h
    have htogether := h.together fun _ => leftover
    simp only [scanLoop_eq, Option.some_inj] at htogether
    exact allHarmless_of_judge htogether
  · intro h
    refine ⟨fun stale => ?_, fun stale d hd => ?_, fun stale stale' => ?_⟩
    · rw [getIpv4DefaultGateway_eq]
      split_ifs <;> rfl
    · rw [scanLoop_eq, judge_of_allHarmless h, Option.some_inj, Option.map_eq_some_iff] at hd
      obtain ⟨values, hvalues, rfl⟩ := hd
      have hselects := List.find?_some hvalues
      exact (of_decide_eq_true hselects).1
    · rw [getIpv4DefaultGateway_eq, getIpv4DefaultGateway_eq, judge_of_allHarmless h,
        judge_of_allHarmless h]

/-- A line with nothing but a name: what is returned is left over. -/
theorem safe_not :
    getIpv4DefaultGateway (fun _ => ⟨INADDR_ANY, 0x0101a8c0, ROUTE_GW ||| ROUTE_UP⟩)
        (some ("Iface".toList ++ newline :: "eth0 ?".toList)) = some "192.168.1.1".toList ∧
      getIpv4DefaultGateway (fun _ => ⟨1, 0, 0⟩)
        (some ("Iface".toList ++ newline :: "eth0 ?".toList)) = some [] ∧
      ¬ Safe ("Iface".toList ++ newline :: "eth0 ?".toList) := by
  have hleft : getIpv4DefaultGateway (fun _ => ⟨INADDR_ANY, 0x0101a8c0, ROUTE_GW ||| ROUTE_UP⟩)
      (some ("Iface".toList ++ newline :: "eth0 ?".toList)) = some "192.168.1.1".toList := by
    decide +kernel
  have hnone : getIpv4DefaultGateway (fun _ => ⟨1, 0, 0⟩)
      (some ("Iface".toList ++ newline :: "eth0 ?".toList)) = some [] := by
    decide +kernel
  refine ⟨hleft, hnone, fun h => ?_⟩
  have heq := hnone.symm.trans ((h.alone _ _).trans hleft)
  exact absurd heq (by decide)

end Hbm.DefaultGateway
