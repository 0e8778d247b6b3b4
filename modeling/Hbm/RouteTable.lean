import Hbm.DefaultGateway

/-!
The routing table as it is printed in `/proc/net/route`, and what `getIpv4DefaultGateway` makes of
it.

All fields are scanned with a width of eight characters. This is enough for the addresses. A decimal
number of 32 bits may have more digits, and what is left of it is taken for the next field.
-/

namespace Hbm.RouteTable

open Hbm.Strtoul Hbm.Dotted Hbm.Scanf Hbm.DefaultGateway

/-! ### The format -/

def tab : Char := Char.ofNat 9

def hexDigit (n : ℕ) : Char := (Nat.digitChar n).toUpper

/-- `n` with `k` hexadecimal digits. -/
def hex : ℕ → ℕ → List Char
  | 0, _ => []
  | k + 1, n => hex k (n / 16) ++ [hexDigit (n % 16)]

def sgn (z : ℤ) : List Char := if z < 0 then ['-'] else []

def decimal (z : ℤ) : List Char := sgn z ++ to_string z.natAbs

/-- A route. The addresses are those of `s_addr`, and the flags are printed with as many digits as
they need, or more. -/
structure Route where
  deviceName : List Char
  destination : BitVec 32
  gateway : BitVec 32
  flags : BitVec 32
  flagDigits : ℕ
  refCnt : ℤ
  use : ℤ
  metric : ℤ
  mask : BitVec 32
  mtu : ℤ
  window : ℤ
  irtt : ℤ
  padding : ℕ
  name_ne_nil : deviceName ≠ []
  name_length : deviceName.length < 64
  name_noSpace : ∀ c ∈ deviceName, ¬ isspace c
  flagDigits_pos : 0 < flagDigits
  flagDigits_le : flagDigits ≤ 8
  flags_lt : flags.toNat < 16 ^ flagDigits

/-- A field: how it is scanned, how it is printed, and its value. -/
structure Field where
  directive : Directive
  text : List Char
  value : Value

def hexField (k n : ℕ) : Field := ⟨.number 16 8, hex k n, .num false n⟩

def decimalField (z : ℤ) : Field := ⟨.number 10 8, decimal z, .num (decide (z < 0)) z.natAbs⟩

/-- The fields that decide. -/
def front (r : Route) : List Field :=
  [hexField 8 r.destination.toNat, hexField 8 r.gateway.toNat, hexField r.flagDigits r.flags.toNat]

def back (r : Route) : List Field :=
  [decimalField r.refCnt, decimalField r.use, decimalField r.metric, hexField 8 r.mask.toNat,
    decimalField r.mtu, decimalField r.window, decimalField r.irtt]

def printFields (fields : List Field) : List Char := fields.flatMap fun f => tab :: f.text

/-- The line is padded with blanks. -/
def printRoute (r : Route) : List Char :=
  r.deviceName ++ (printFields (front r) ++
    (printFields (back r) ++ (List.replicate r.padding ' ' ++ [newline])))

def printTable (header : List Char) (routes : List Route) : List Char :=
  header ++ newline :: routes.flatMap printRoute

/-! ### What should be returned -/

/-- The route is up, goes over a gateway, and its destination is 0.0.0.0. -/
def Candidate (r : Route) : Prop :=
  r.flags &&& ROUTE_GW ≠ 0 ∧ r.flags &&& ROUTE_UP ≠ 0 ∧ r.destination = 0

instance (r : Route) : Decidable (Candidate r) := inferInstanceAs (Decidable (_ ∧ _ ∧ _))

def IsDefault (r : Route) : Prop := Candidate r ∧ r.mask = 0

instance (r : Route) : Decidable (IsDefault r) := inferInstanceAs (Decidable (_ ∧ _))

def gatewayOf (r : Option Route) : List Char := (r.map fun r => inNtoa r.gateway).getD []

/-- All decimal numbers of the line fit into eight characters. -/
def Narrow (r : Route) : Prop :=
  ∀ z ∈ [r.refCnt, r.use, r.metric, r.mtu, r.window, r.irtt], (decimal z).length ≤ 8

/-! ### Fields -/

variable {k n : ℕ} {z : ℤ} {f : Field} {fields : List Field} {rest : List Char} {r : Route}

/-- A field is scanned as it is printed. -/
def Reads (f : Field) : Prop := ∀ rest : List Char, (∀ c ∈ rest.head?, isspace c) →
  scan f.directive (tab :: f.text ++ rest) = .assigned f.value rest

lemma isspace_tab : ∀ c ∈ [tab], isspace c := by
  intro c hc
  rw [List.mem_singleton.mp hc]
  decide

lemma digit_hexDigit (h : n < 16) : digit (hexDigit n) = n := digit_digitChar h

lemma length_hex (k n : ℕ) : (hex k n).length = k := by
  induction k generalizing n with
  | zero => rfl
  | succ k ih => rw [hex, List.length_append, ih, List.length_singleton]

lemma digit_of_mem_hex : ∀ c ∈ hex k n, digit c < 16 := by
  induction k generalizing n with
  | zero => exact fun c hc => absurd hc List.not_mem_nil
  | succ k ih =>
    rw [hex, List.forall_mem_append, List.forall_mem_singleton, digit_hexDigit (by omega)]
    exact ⟨ih, by omega⟩

lemma value_hex (h : n < 16 ^ k) : value 16 (hex k n) = n := by
  induction k generalizing n with
  | zero =>
    rw [Nat.pow_zero] at h
    rw [hex, value, List.foldl_nil]
    omega
  | succ k ih =>
    rw [Nat.pow_succ] at h
    rw [hex, value_concat, ih (by omega), digit_hexDigit (by omega)]
    omega

lemma reads_hexField (hpos : 0 < k) (hle : k ≤ 8) (h : n < 16 ^ k) : Reads (hexField k n) := by
  intro rest hrest
  have hne : hex k n ≠ [] := List.ne_nil_of_length_pos (by rwa [length_hex])
  have hlen : ([] : List Char).length + (hex k n).length ≤ 8 := by
    rw [length_hex, List.length_nil, Nat.zero_add]
    exact hle
  have hscan := scan_number (Nat.le_refl 16) isspace_tab (.inl rfl) hne digit_of_mem_hex hlen hrest
  rw [value_hex h] at hscan
  exact hscan

lemma reads_address (a : BitVec 32) : Reads (hexField 8 a.toNat) :=
  reads_hexField (by decide) (Nat.le_refl 8) a.isLt

lemma reads_decimalField (h : (decimal z).length ≤ 8) : Reads (decimalField z) := by
  intro rest hrest
  have hsgn : sgn z = [] ∨ sgn z = ['-'] := by
    unfold sgn
    split_ifs
    · exact .inr rfl
    · exact .inl rfl
  have hds : ∀ c ∈ to_string z.natAbs, digit c < 10 :=
    fun c hc => digit_lt_ten.mpr (isDigit_of_mem_to_string c hc)
  rw [decimal, List.length_append] at h
  have hscan := scan_number (by decide) isspace_tab hsgn (to_string_ne_nil z.natAbs) hds h hrest
  have hneg : decide (sgn z = ['-']) = decide (z < 0) := by
    unfold sgn
    by_cases hz : z < 0 <;> simp [hz]
  rw [value_to_string, hneg] at hscan
  exact hscan

lemma head?_printFields (fields : List Field) (hrest : ∀ c ∈ rest.head?, isspace c) :
    ∀ c ∈ (printFields fields ++ rest).head?, isspace c := by
  cases fields with
  | nil => exact hrest
  | cons f fields =>
    intro c hc
    obtain rfl : tab = c := Option.some_inj.mp hc
    decide

/-- Fields are scanned one after the other. -/
lemma fscanf_fields (h : ∀ f ∈ fields, Reads f) (hrest : ∀ c ∈ rest.head?, isspace c) :
    fscanf (fields.map Field.directive) (printFields fields ++ rest) =
      ⟨fields.map Field.value, rest, decide (fields ≠ []), none⟩ := by
  induction fields with
  | nil => rfl
  | cons f fields ih =>
    obtain ⟨hf, hfields⟩ := List.forall_mem_cons.mp h
    have hprint : printFields (f :: fields) ++ rest =
        tab :: f.text ++ (printFields fields ++ rest) := by
      rw [printFields, List.flatMap_cons, List.append_assoc, ← printFields]
    rw [hprint, List.map_cons, fscanf, hf _ (head?_printFields fields hrest)]
    dsimp only
    rw [ih hfields]
    simp [Result.after]

/-! ### Lines -/

/-- What is left of a line behind the fields that decide. -/
def remainder (r : Route) (rest : List Char) : List Char :=
  printFields (back r) ++ (List.replicate r.padding ' ' ++ newline :: rest)

/-- The directives behind them. -/
def behind (r : Route) : List Directive := (back r).map Field.directive ++ [.space]

def frontValues (r : Route) : List Value := .text r.deviceName :: (front r).map Field.value

lemma head?_append_cons {s : List Char} {c : Char} (hs : ∀ d ∈ s, isspace d) (hc : isspace c) :
    ∀ d ∈ (s ++ c :: rest).head?, isspace d := by
  intro d hd
  cases s with
  | nil =>
    obtain rfl : c = d := Option.some_inj.mp hd
    exact hc
  | cons e s =>
    obtain rfl : e = d := Option.some_inj.mp hd
    exact hs e List.mem_cons_self

lemma dropWhile_eq_self (h : ∀ c ∈ rest.head?, ¬ isspace c) : rest.dropWhile isspace = rest := by
  cases rest with
  | nil => rfl
  | cons c rest => exact List.dropWhile_cons_of_neg (h c rfl)

lemma isspace_padding (n : ℕ) : ∀ c ∈ List.replicate n ' ', isspace c := by
  intro c hc
  rw [List.eq_of_mem_replicate hc]
  decide

lemma isspace_newline : isspace newline := by decide

lemma reads_front (r : Route) : ∀ f ∈ front r, Reads f := by
  simp only [front, List.forall_mem_cons, List.not_mem_nil, false_imp_iff, implies_true, and_true]
  exact ⟨reads_address r.destination, reads_address r.gateway,
    reads_hexField r.flagDigits_pos r.flagDigits_le r.flags_lt⟩

lemma reads_back (h : Narrow r) : ∀ f ∈ back r, Reads f := by
  simp only [Narrow, List.forall_mem_cons, List.not_mem_nil, false_imp_iff, implies_true,
    and_true] at h
  simp only [back, List.forall_mem_cons, List.not_mem_nil, false_imp_iff, implies_true, and_true]
  obtain ⟨hrefCnt, huse, hmetric, hmtu, hwindow, hirtt⟩ := h
  exact ⟨reads_decimalField hrefCnt, reads_decimalField huse, reads_decimalField hmetric,
    reads_address r.mask, reads_decimalField hmtu, reads_decimalField hwindow,
    reads_decimalField hirtt⟩

/-- Name, destination, gateway and flags are read from every line. -/
lemma fscanf_front (r : Route) (rest : List Char) :
    fscanf (.string 63 :: (front r).map Field.directive) (printRoute r ++ rest) =
      ⟨frontValues r, remainder r rest, true, none⟩ := by
  have hprint : printRoute r ++ rest =
      r.deviceName ++ (printFields (front r) ++ remainder r rest) := by
    simp [printRoute, remainder, List.append_assoc]
  have hremainder : ∀ c ∈ (remainder r rest).head?, isspace c :=
    head?_printFields (back r) (head?_append_cons (isspace_padding r.padding) isspace_newline)
  have hname := scan_string r.name_ne_nil r.name_noSpace (Nat.le_of_lt_succ r.name_length)
    (head?_printFields (front r) hremainder)
  rw [hprint, fscanf, hname]
  dsimp only
  rw [fscanf_fields (reads_front r) hremainder]
  rfl

/-- The call on a line. -/
lemma fscanf_route (r : Route) (rest : List Char) : fscanf record (printRoute r ++ rest) =
    ⟨frontValues r ++ (fscanf (behind r) (remainder r rest)).values,
      (fscanf (behind r) (remainder r rest)).rest, true,
      (fscanf (behind r) (remainder r rest)).failure⟩ := by
  have hrecord : record = (.string 63 :: (front r).map Field.directive) ++ behind r := rfl
  have hfront := fscanf_front r rest
  rw [hrecord, fscanf_append (by rw [hfront]), hfront]
  rfl

/-- A line of narrow fields is read to its end. -/
lemma fscanf_behind (h : Narrow r) (hrest : ∀ c ∈ rest.head?, ¬ isspace c) :
    (fscanf (behind r) (remainder r rest)).rest = rest := by
  have hline : ∀ c ∈ (List.replicate r.padding ' ' ++ newline :: rest).head?, isspace c :=
    head?_append_cons (isspace_padding _) isspace_newline
  have hfields := fscanf_fields (reads_back h) hline
  have hspace : (List.replicate r.padding ' ' ++ newline :: rest).dropWhile isspace = rest := by
    rw [List.dropWhile_append_of_pos (isspace_padding _),
      List.dropWhile_cons_of_pos isspace_newline]
    exact dropWhile_eq_self hrest
  rw [behind, remainder, fscanf_append (by rw [hfields]), hfields]
  dsimp only
  rw [fscanf, scan]
  exact hspace

lemma ret_route (r : Route) (rest : List Char) :
    0 ≤ (fscanf record (printRoute r ++ rest)).ret := by
  rw [fscanf_route, Result.ret]
  simp
  omega

/-! ### The decision -/

variable {stale : ℕ → Vars} {turn : ℕ} {routes : List Route} {values : List Value}

lemma assign_route (v : Vars) (r : Route) (values : List Value) :
    assign v (frontValues r ++ values) = ⟨r.destination.toNat, r.gateway.toNat, r.flags⟩ := by
  have hflags : BitVec.ofNat 32 r.flags.toNat = r.flags := by simp
  rw [← hflags]
  rfl

lemma chosen_route (r : Route) :
    Chosen ⟨r.destination.toNat, r.gateway.toNat, r.flags⟩ ↔ Candidate r := by
  have hdest : r.destination.toNat = INADDR_ANY ↔ r.destination = 0 := by
    rw [← BitVec.toNat_inj]
    rfl
  rw [Chosen, Candidate, hdest]

/-- A line begins with the name of its device. -/
lemma head?_lines (routes : List Route) :
    ∀ c ∈ (routes.flatMap printRoute).head?, ¬ isspace c := by
  cases routes with
  | nil => exact fun c hc => by cases hc
  | cons r routes =>
    obtain ⟨d, name, hname⟩ := List.exists_cons_of_ne_nil r.name_ne_nil
    intro c hc
    rw [List.flatMap_cons, printRoute, hname] at hc
    obtain rfl : d = c := Option.some_inj.mp hc
    exact r.name_noSpace d (by rw [hname]; exact List.mem_cons_self)

/-- What is decided on the lines, where those before the first candidate are narrow: every one of
them is a call of its own. -/
lemma judge_routes (hnarrow : ∀ r ∈ routes.takeWhile fun r => ¬ Candidate r, Narrow r) {n : ℕ}
    (hn : (routes.flatMap printRoute).length < n) :
    (judge stale turn (callsFrom n (routes.flatMap printRoute))).map Decision.gateway =
      (routes.find? (Candidate ·)).map fun r => r.gateway.toNat := by
  induction routes generalizing n turn with
  | nil =>
    obtain ⟨n, rfl⟩ : ∃ m, n = m + 1 := ⟨n - 1, by omega⟩
    have hend : (fscanf record []).ret < 0 ∧ (fscanf record []).feof := by decide
    rw [List.flatMap_nil, callsFrom, if_pos hend]
    rfl
  | cons r routes ih =>
    obtain ⟨n, rfl⟩ : ∃ m, n = m + 1 := ⟨n - 1, by omega⟩
    have hgo : ¬ ((fscanf record (printRoute r ++ routes.flatMap printRoute)).ret < 0 ∧
        (fscanf record (printRoute r ++ routes.flatMap printRoute)).feof) :=
      fun hend => absurd hend.1 (Int.not_lt.mpr (ret_route r _))
    rw [List.flatMap_cons, callsFrom, if_neg hgo, judge, fscanf_route, assign_route,
      List.find?_cons]
    simp only [chosen_route]
    by_cases hcandidate : Candidate r
    · rw [if_pos hcandidate, decide_eq_true hcandidate]
      rfl
    · have htake : (r :: routes).takeWhile (fun r => ¬ Candidate r) =
          r :: routes.takeWhile fun r => ¬ Candidate r :=
        List.takeWhile_cons_of_pos (by simpa using hcandidate)
      rw [htake, List.forall_mem_cons] at hnarrow
      have hlen : (routes.flatMap printRoute).length < n := by
        have hpos := List.length_pos_iff.mpr r.name_ne_nil
        rw [List.flatMap_cons, List.length_append, printRoute, List.length_append] at hn
        omega
      rw [if_neg hcandidate, decide_eq_false hcandidate,
        fscanf_behind hnarrow.1 (head?_lines routes)]
      exact ih hnarrow.2 hlen

/-- The first line is skipped. -/
lemma fscanf_firstLine {header : List Char} (hne : header ≠ []) (hline : newline ∉ header)
    (routes : List Route) : fscanf firstLine (printTable header routes) =
      ⟨[], routes.flatMap printRoute, true, none⟩ := by
  have hhead : (header ++ newline :: routes.flatMap printRoute).head? ≠ some newline := by
    obtain ⟨c, header, rfl⟩ := List.exists_cons_of_ne_nil hne
    intro h
    obtain rfl : c = newline := Option.some_inj.mp h
    exact hline List.mem_cons_self
  have hdrop : (header ++ newline :: routes.flatMap printRoute).dropWhile (· ≠ newline) =
      newline :: routes.flatMap printRoute :=
    (span_append (fun c hc => decide_eq_true (ne_of_mem_of_not_mem hc hline)) (by simp)).2
  have hnil : header ++ newline :: routes.flatMap printRoute ≠ [] := by simp
  have hspace : (newline :: routes.flatMap printRoute).dropWhile isspace =
      routes.flatMap printRoute := by
    rw [List.dropWhile_cons_of_pos isspace_newline]
    exact dropWhile_eq_self (head?_lines routes)
  rw [firstLine, fscanf, printTable, scan, if_neg hnil, if_neg hhead, hdrop]
  dsimp only
  rw [fscanf, scan, hspace]
  rfl

/-- The gateway of the first candidate is returned. -/
lemma getIpv4DefaultGateway_table {header : List Char} (hne : header ≠ [])
    (hline : newline ∉ header)
    (hnarrow : ∀ r ∈ routes.takeWhile fun r => ¬ Candidate r, Narrow r) (stale : ℕ → Vars) :
    getIpv4DefaultGateway stale (some (printTable header routes)) =
      some (gatewayOf (routes.find? (Candidate ·))) := by
  have hjudge : (judge stale 0 (calls (routes.flatMap printRoute))).map Decision.gateway = _ :=
    judge_routes hnarrow (Nat.lt_succ_self _)
  have hret : ¬ (fscanf firstLine (printTable header routes)).ret < 0 := by
    rw [fscanf_firstLine hne hline]
    exact Int.lt_irrefl 0
  have hmap : (fun d : Decision => inNtoa (BitVec.ofNat 32 d.gateway)) =
      (fun g => inNtoa (BitVec.ofNat 32 g)) ∘ Decision.gateway := rfl
  rw [getIpv4DefaultGateway_eq, if_neg hret, afterFirstLine, fscanf_firstLine hne hline, hmap,
    ← Option.map_map, hjudge, Option.map_map, gatewayOf]
  simp [Function.comp_def]

lemma inNtoa_injective : Function.Injective inNtoa := by
  intro a b h
  have hne : ∀ a : BitVec 32, (bytes a).reverse ≠ [] :=
    fun a => mt List.reverse_eq_nil_iff.mp (bytes_ne_nil a)
  exact bytes_injective (List.reverse_injective (join_injective (hne a) (hne b) h))

lemma inNtoa_ne_nil (a : BitVec 32) : inNtoa a ≠ [] := by
  simp [inNtoa, bytes, List.range_succ, List.intercalate_cons_cons]

/-- A default route is a candidate. -/
lemma find?_isDefault (h : routes.find? (Candidate ·) = none) :
    routes.find? (IsDefault ·) = none := by
  rw [List.find?_eq_none] at h ⊢
  intro r hr hdefault
  exact h r hr (decide_eq_true (of_decide_eq_true hdefault).1)

/-- **The default gateway is returned** exactly if the first candidate has the gateway of the first
default route, as long as the lines before it are narrow. -/
theorem gateway_iff {header : List Char} (hne : header ≠ []) (hline : newline ∉ header)
    (hnarrow : ∀ r ∈ routes.takeWhile fun r => ¬ Candidate r, Narrow r) :
    (∀ stale, getIpv4DefaultGateway stale (some (printTable header routes)) =
        some (gatewayOf (routes.find? (IsDefault ·)))) ↔
      ∀ first, routes.find? (Candidate ·) = some first →
        ∃ r, routes.find? (IsDefault ·) = some r ∧ r.gateway = first.gateway := by
  have hany : Nonempty (ℕ → Vars) := ⟨fun _ => leftover⟩
  simp only [getIpv4DefaultGateway_table hne hline hnarrow, Option.some_inj, forall_const]
  cases hfirst : routes.find? (Candidate ·) with
  | none =>
    rw [find?_isDefault hfirst]
    exact iff_of_true rfl fun first h => by cases h
  | some first =>
    simp only [Option.some_inj, forall_eq']
    cases hdefault : routes.find? (IsDefault ·) with
    | none =>
      refine iff_of_false (fun h => inNtoa_ne_nil first.gateway h) ?_
      rintro ⟨r, h, -⟩
      cases h
    | some r =>
      simp only [Option.some_inj, exists_eq_left']
      exact ⟨fun h => (inNtoa_injective h).symm, fun h => congrArg inNtoa h.symm⟩

lemma sampleDigits_pos : 0 < 4 := by decide

/-- A route of eth0. -/
def sampleRoute (destination gateway : BitVec 32) (flags : Fin 4) (metric : ℤ) (mask : BitVec 32)
    (window irtt : ℤ) : Route where
  deviceName := "eth0".toList
  destination := destination
  gateway := gateway
  flags := BitVec.ofNat 32 flags
  flagDigits := 4
  refCnt := 0
  use := 0
  metric := metric
  mask := mask
  mtu := 0
  window := window
  irtt := irtt
  padding := 2
  name_ne_nil := by decide
  name_length := by decide
  name_noSpace c hc := by
    have hall : "eth0".toList.all (! isspace ·) = true := by decide
    simpa using List.all_eq_true.mp hall c hc
  flagDigits_pos := sampleDigits_pos
  flagDigits_le := by decide
  flags_lt := by
    have := flags.isLt
    rw [BitVec.toNat_ofNat]
    omega

/-- The network 192.168.1.0/24, and a default route over 192.168.1.1. -/
def sampleTable : List Route :=
  [sampleRoute 0x0001a8c0 0 1 100 0x00ffffff 0 0, sampleRoute 0 0x0101a8c0 3 4294967295 0 0 0]

theorem gateway_iff_sample :
    (∀ stale, getIpv4DefaultGateway stale (some (printTable "Iface".toList sampleTable)) =
        some (gatewayOf (sampleTable.find? (IsDefault ·)))) ↔
      ∀ first, sampleTable.find? (Candidate ·) = some first →
        ∃ r, sampleTable.find? (IsDefault ·) = some r ∧ r.gateway = first.gateway :=
  gateway_iff (by decide) (by decide) (by
    have htake : (sampleTable.takeWhile fun r => ¬ Candidate r) =
        [sampleRoute 0x0001a8c0 0 1 100 0x00ffffff 0 0] := rfl
    rw [htake, List.forall_mem_singleton]
    unfold Narrow
    decide)

/-- The rest of the metric shifts the fields, and the window and the round trip time are taken for
gateway and flags. And a route to one half of all addresses is taken for the default route. -/
theorem gateway_not :
    getIpv4DefaultGateway (fun _ => ⟨1, 0, 0⟩) (some (printTable "Iface".toList
        [sampleRoute 0x0000000a 0 1 4294967295 0x000000ff 5 3])) = some "5.0.0.0".toList ∧
      gatewayOf ([sampleRoute 0x0000000a 0 1 4294967295 0x000000ff 5 3].find? (IsDefault ·)) = [] ∧
      getIpv4DefaultGateway (fun _ => ⟨1, 0, 0⟩) (some (printTable "Iface".toList
        [sampleRoute 0 0x0101a8c0 3 0 0x00000080 0 0])) = some "192.168.1.1".toList ∧
      gatewayOf ([sampleRoute 0 0x0101a8c0 3 0 0x00000080 0 0].find? (IsDefault ·)) = [] := by
  refine ⟨by decide +kernel, by decide +kernel, by decide +kernel, by decide +kernel⟩

end Hbm.RouteTable
