import Hbm.HardwareInfo
import Hbm.Dotted
import Mathlib.Data.List.OfFn

/-!
`SocketNonblocking::checkSockAddr` on Linux.

The address of the peer goes into a variable that holds 16 bytes of it, and is read with the length
that `getpeername` reports. The rest of an IPv6 address is what lies behind the variable.
-/

namespace Hbm.CheckSockAddr

open Hbm.Strtoul Hbm.Dotted Hbm.HardwareInfo

def AF_INET : ℕ := 2
def AF_INET6 : ℕ := 10

/-- `sizeof(sockaddr_in)`, which is also that of `sockaddr`. -/
def inetSize : ℕ := 16

/-- `sizeof(sockaddr_in6)` -/
def inet6Size : ℕ := 28

/-! ### Addresses in memory -/

def byteAt (bytes : List (BitVec 8)) (i : ℕ) : BitVec 8 := bytes.getD i 0

/-- The family, in the order of the processor. -/
def family (bytes : List (BitVec 8)) : ℕ :=
  (byteAt bytes 0).toNat + 256 * (byteAt bytes 1).toNat

/-- The port, in the order of the network. -/
def port (bytes : List (BitVec 8)) : ℕ := 256 * (byteAt bytes 2).toNat + (byteAt bytes 3).toNat

def sin_addr (bytes : List (BitVec 8)) : BitVec 32 :=
  byteAt bytes 4 ++ byteAt bytes 5 ++ byteAt bytes 6 ++ byteAt bytes 7

def sin6_addr (bytes : List (BitVec 8)) (i : Fin 16) : BitVec 8 := byteAt bytes (8 + i)

def sin6_scope_id (bytes : List (BitVec 8)) : BitVec 32 :=
  byteAt bytes 27 ++ byteAt bytes 26 ++ byteAt bytes 25 ++ byteAt bytes 24

/-- How `getnameinfo` writes an IPv6 address with its scope, and its answer for addresses that are
not of the internet. -/
structure Names where
  host6 : (Fin 16 → BitVec 8) → BitVec 32 → List Char
  other : List (BitVec 8) → Option (List Char × List Char)

variable (names : Names)

/-- Host and service as numbers; `none` for an error. -/
def getnameinfo (bytes : List (BitVec 8)) : Option (List Char × List Char) :=
  if family bytes = AF_INET then
    if bytes.length < inetSize then none
    else some (inet_ntoa (sin_addr bytes), to_string (port bytes))
  else if family bytes = AF_INET6 then
    if bytes.length < inet6Size then none
    else some (names.host6 (sin6_addr bytes) (sin6_scope_id bytes), to_string (port bytes))
  else names.other bytes

/-- The address of a peer, in the layout of its family. -/
structure Peer where
  bytes : List (BitVec 8)
  wf : family bytes = AF_INET ∧ bytes.length = inetSize ∨
    family bytes = AF_INET6 ∧ bytes.length = inet6Size

/-- `getpeername` copies as much as fits and reports the whole length. -/
def getpeername (peer : Peer) (memory : List (BitVec 8)) (addrLen : ℕ) : List (BitVec 8) × ℕ :=
  (peer.bytes.take addrLen ++ memory.drop (min addrLen peer.bytes.length), peer.bytes.length)

/-- `memory` is what lies at the local variable and behind it. -/
def checkSockAddr (peer : Peer) (memory : Fin 28 → BitVec 8) (checkSockAddr : List (BitVec 8)) :
    Bool :=
  match getnameinfo names checkSockAddr with
  | none => false
  | some (checkHost, checkService) =>
    let (sockAddr, addrLen) := getpeername peer (List.ofFn memory) inetSize
    match getnameinfo names (sockAddr.take addrLen) with
    | none => false
    | some (host, service) => decide (host = checkHost ∧ service = checkService)

/-! ### What is read -/

/-- The bytes that `getnameinfo` reads for the peer. -/
def seen (peer : Peer) (memory : Fin 28 → BitVec 8) : List (BitVec 8) :=
  (getpeername peer (List.ofFn memory) inetSize).1.take
    (getpeername peer (List.ofFn memory) inetSize).2

variable {names} {peer : Peer} {memory : Fin 28 → BitVec 8} {given : List (BitVec 8)}

lemma checkSockAddr_iff : checkSockAddr names peer memory given ↔
    (getnameinfo names given).isSome ∧
      getnameinfo names given = getnameinfo names (seen peer memory) := by
  unfold checkSockAddr seen
  cases getnameinfo names given with
  | none => simp
  | some check =>
    dsimp only
    cases getnameinfo names _ with
    | none => simp
    | some name =>
      obtain ⟨host, service⟩ := name
      obtain ⟨checkHost, checkService⟩ := check
      simp only [decide_eq_true_eq, Option.isSome_some, Option.some_inj, Prod.mk.injEq, true_and]
      exact and_congr eq_comm eq_comm

/-- An IPv4 address fits. -/
lemma seen_inet (hlen : peer.bytes.length = inetSize) : seen peer memory = peer.bytes := by
  have htake : peer.bytes.take inetSize = peer.bytes := List.take_of_length_le hlen.le
  rw [seen, getpeername, htake, List.take_left]

/-- Of an IPv6 address the first 16 bytes fit. -/
lemma byteAt_seen (hlen : peer.bytes.length = inet6Size) {i : ℕ} (hi : i < 28) :
    byteAt (seen peer memory) i =
      if i < 16 then byteAt peer.bytes i else byteAt (List.ofFn memory) i := by
  have hbytes : seen peer memory =
      (peer.bytes.take 16 ++ (List.ofFn memory).drop 16).take 28 := by
    rw [seen, getpeername, hlen]
    rfl
  have hsize : peer.bytes.length = 28 := hlen
  rw [byteAt, hbytes, List.getD_eq_getElem?_getD, List.getElem?_take_of_lt hi]
  split_ifs with h
  · rw [List.getElem?_append_left (by simp; omega), List.getElem?_take_of_lt h, byteAt,
      List.getD_eq_getElem?_getD]
  · rw [List.getElem?_append_right (by simp; omega), List.getElem?_drop, List.length_take, hsize,
      byteAt, List.getD_eq_getElem?_getD]
    congr 2
    omega

lemma length_seen (hlen : peer.bytes.length = inet6Size) :
    (seen peer memory).length = inet6Size := by
  rw [seen, getpeername, hlen]
  simp [hlen, inet6Size, inetSize]

lemma getnameinfo_seen (hfamily : family peer.bytes = AF_INET6)
    (hlen : peer.bytes.length = inet6Size) : getnameinfo names (seen peer memory) =
      some (names.host6 (sin6_addr (seen peer memory)) (sin6_scope_id (seen peer memory)),
        to_string (port peer.bytes)) := by
  have hfam : family (seen peer memory) = AF_INET6 := by
    rw [← hfamily, family, family, byteAt_seen hlen (by decide), byteAt_seen hlen (by decide)]
    rfl
  have hport : port (seen peer memory) = port peer.bytes := by
    rw [port, port, byteAt_seen hlen (by decide), byteAt_seen hlen (by decide)]
    rfl
  rw [getnameinfo, hfam, hport, length_seen hlen, if_neg (by decide), if_pos rfl,
    if_neg (Nat.lt_irrefl _)]

/-! ### What decides -/

/-- The text of an IPv6 address tells the address, and it is neither that of an IPv4 address nor
what is answered for an address of another kind. -/
structure Documented (names : Names) : Prop where
  host6_address : ∀ a s a' s', names.host6 a s = names.host6 a' s' → a = a'
  host6_inet : ∀ a s b, names.host6 a s ≠ inet_ntoa b
  other_host : ∀ bytes host service, names.other bytes = some (host, service) →
    ∀ a s, host ≠ names.host6 a s

/-- The answer is whether host and port are those of the peer, whatever the memory contains. -/
def Decided (names : Names) (peer : Peer) (given : List (BitVec 8)) : Prop :=
  (∀ memory, checkSockAddr names peer memory given ↔
    (getnameinfo names given).isSome ∧
      getnameinfo names given = getnameinfo names peer.bytes) ∧
  ∀ memory memory', checkSockAddr names peer memory given =
    checkSockAddr names peer memory' given

/-- Two IPv6 addresses with the same port and the same first half. -/
def SameStart (peer : Peer) (given : List (BitVec 8)) : Prop :=
  family peer.bytes = AF_INET6 ∧ family given = AF_INET6 ∧ inet6Size ≤ given.length ∧
    port given = port peer.bytes ∧
    ∀ i < 8, byteAt given (8 + i) = byteAt peer.bytes (8 + i)

lemma getnameinfo_inet6 (hfamily : family given = AF_INET6) (hlen : inet6Size ≤ given.length) :
    getnameinfo names given =
      some (names.host6 (sin6_addr given) (sin6_scope_id given), to_string (port given)) := by
  rw [getnameinfo, hfamily, if_neg (by decide), if_pos rfl, if_neg (Nat.not_lt.mpr hlen)]

/-- Where the first half or the port differs, so do the names. -/
lemma name_ne (hnames : Documented names) (hstart : ¬ SameStart peer given)
    (hpeer : family peer.bytes = AF_INET6) {a : Fin 16 → BitVec 8} {s : BitVec 32}
    (ha : ∀ i : Fin 16, i.val < 8 → a i = sin6_addr peer.bytes i) :
    getnameinfo names given ≠ some (names.host6 a s, to_string (port peer.bytes)) := by
  intro h
  by_cases hinet : family given = AF_INET
  · rw [getnameinfo, if_pos hinet] at h
    split_ifs at h
    exact hnames.host6_inet a s _ (congrArg Prod.fst (Option.some_inj.mp h)).symm
  · by_cases hinet6 : family given = AF_INET6
    · by_cases hlen : inet6Size ≤ given.length
      · rw [getnameinfo_inet6 hinet6 hlen, Option.some_inj, Prod.mk.injEq] at h
        have haddr := hnames.host6_address _ _ _ _ h.1
        refine hstart ⟨hpeer, hinet6, hlen, to_string_injective h.2, fun i hi => ?_⟩
        have hbyte := ha ⟨i, by omega⟩ hi
        rw [← haddr] at hbyte
        exact hbyte
      · rw [getnameinfo, if_neg hinet, if_pos hinet6, if_pos (Nat.not_le.mp hlen)] at h
        cases h
    · rw [getnameinfo, if_neg hinet, if_neg hinet6] at h
      exact hnames.other_host _ _ _ h a s rfl

lemma sin6_addr_seen (hlen : peer.bytes.length = inet6Size) (i : Fin 16) (hi : i.val < 8) :
    sin6_addr (seen peer memory) i = sin6_addr peer.bytes i := by
  rw [sin6_addr, byteAt_seen hlen (by omega), if_pos (by omega), sin6_addr]

/-- The memory completes the address to the given one. -/
lemma seen_completed (hlen : peer.bytes.length = inet6Size) (h : SameStart peer given)
    (hmemory : ∀ i : Fin 28, memory i = byteAt given i) :
    getnameinfo names (seen peer memory) = getnameinfo names given := by
  obtain ⟨hpeer, hgiven, hlong, hport, hstart⟩ := h
  have hbyte : ∀ i, 8 ≤ i → i < 28 → byteAt (seen peer memory) i = byteAt given i := by
    intro i h8 h28
    rw [byteAt_seen hlen h28]
    split_ifs with h16
    · have hi := hstart (i - 8) (by omega)
      rwa [Nat.add_sub_cancel' h8, eq_comm] at hi
    · rw [byteAt, List.getD_eq_getElem?_getD, List.getElem?_ofFn, dif_pos h28, Option.getD_some]
      exact hmemory ⟨i, h28⟩
  have haddr : sin6_addr (seen peer memory) = sin6_addr given :=
    funext fun i => hbyte (8 + i) (by omega) (by omega)
  have hscope : sin6_scope_id (seen peer memory) = sin6_scope_id given := by
    rw [sin6_scope_id, hbyte 27 (by decide) (by decide), hbyte 26 (by decide) (by decide),
      hbyte 25 (by decide) (by decide), hbyte 24 (by decide) (by decide), sin6_scope_id]
  rw [getnameinfo_seen hpeer hlen, getnameinfo_inet6 hgiven hlong, haddr, hscope, hport]

lemma ne_not (b : BitVec 8) : b ≠ ~~~ b := by
  intro h
  have hnat := congrArg BitVec.toNat h
  rw [BitVec.toNat_not] at hnat
  omega

/-- **The addresses decide** exactly where not both are IPv6 addresses with the same port and the
same first half: there the memory decides. -/
theorem decided_iff (hnames : Documented names) (peer : Peer) (given : List (BitVec 8)) :
    Decided names peer given ↔ ¬ SameStart peer given := by
  rcases peer.wf with ⟨hfamily, hlen⟩ | ⟨hfamily, hlen⟩
  · -- The whole IPv4 address is there.
    refine iff_of_true ⟨fun memory => ?_, fun memory memory' => ?_⟩ fun h => ?_
    · rw [checkSockAddr_iff, seen_inet hlen]
    · rw [Bool.eq_iff_iff, checkSockAddr_iff, checkSockAddr_iff, seen_inet hlen, seen_inet hlen]
    · exact absurd (hfamily.symm.trans h.1) (by decide)
  · constructor
    · intro hdecided hstart
      have hname : getnameinfo names given = _ := getnameinfo_inet6 hstart.2.1 hstart.2.2.1
      have hyes : checkSockAddr names peer (fun i => byteAt given i) given := by
        rw [checkSockAddr_iff, seen_completed hlen hstart fun _ => rfl, hname]
        exact ⟨rfl, rfl⟩
      have hno : checkSockAddr names peer (fun i => ~~~ byteAt given i) given := by
        rw [← hdecided.2 fun i => byteAt given i]
        exact hyes
      rw [checkSockAddr_iff, hname, getnameinfo_seen hfamily hlen, Option.some_inj,
        Prod.mk.injEq] at hno
      -- The ninth byte of the address comes from the memory.
      have hbyte := congrFun (hnames.host6_address _ _ _ _ hno.2.1) 8
      rw [sin6_addr, sin6_addr, byteAt_seen hlen (by decide), if_neg (by decide)] at hbyte
      exact ne_not (byteAt given 16) hbyte
    · intro hstart
      have hpeer : ¬ getnameinfo names given = getnameinfo names peer.bytes := by
        rw [getnameinfo_inet6 hfamily hlen.ge]
        exact name_ne hnames hstart hfamily fun _ _ => rfl
      have hseen : ∀ memory, ¬ checkSockAddr names peer memory given := by
        intro memory h
        rw [checkSockAddr_iff, getnameinfo_seen hfamily hlen] at h
        exact name_ne hnames hstart hfamily (sin6_addr_seen hlen) h.2
      refine ⟨fun memory => iff_of_false (hseen memory) fun h => hpeer h.2, fun m m' => ?_⟩
      rw [Bool.eq_false_of_not_eq_true (hseen m), Bool.eq_false_of_not_eq_true (hseen m')]

/-! ### Addresses with four digits in every group -/

/-- The text of an address in which no group begins with a zero. -/
def groups (a : Fin 16 → BitVec 8) : List Char :=
  (List.ofFn a).zipIdx.flatMap fun p =>
    (if 0 < p.2 ∧ p.2 % 2 = 0 then [':'] else []) ++ hexByte p.1

def sampleNames : Names where
  host6 a scope := groups a ++ if scope = 0 then [] else '%' :: to_string scope.toNat
  other _ := none

lemma isUpperHex_of_mem_groups {a : Fin 16 → BitVec 8} :
    ∀ c ∈ groups a, c = ':' ∨ isUpperHex c := by
  intro c hc
  obtain ⟨p, -, hc⟩ := List.mem_flatMap.mp hc
  rcases List.mem_append.mp hc with hc | hc
  · split_ifs at hc
    · exact .inl (List.mem_singleton.mp hc)
    · cases hc
  · exact .inr (List.all_eq_true.mp (hexByte_spec p.1).2.1 c hc)

lemma not_mem_groups {a : Fin 16 → BitVec 8} {c : Char} (hcolon : c ≠ ':')
    (hhex : ¬ isUpperHex c) : c ∉ groups a := by
  intro hc
  rcases isUpperHex_of_mem_groups c hc with h | h
  · exact hcolon h
  · exact hhex h

/-- Without the colons the groups are the bytes. -/
lemma filter_zipIdx (bs : List (BitVec 8)) (n : ℕ) :
    ((bs.zipIdx n).flatMap fun p =>
      (if 0 < p.2 ∧ p.2 % 2 = 0 then [':'] else []) ++ hexByte p.1).filter isUpperHex =
        (bs.map hexByte).flatten := by
  induction bs generalizing n with
  | nil => rfl
  | cons b bs ih =>
    have hhex : (hexByte b).filter isUpperHex = hexByte b :=
      List.filter_eq_self.mpr (List.all_eq_true.mp (hexByte_spec b).2.1)
    have hcolon : (if 0 < n ∧ n % 2 = 0 then [':'] else []).filter isUpperHex = [] := by
      split_ifs
      · decide
      · rfl
    rw [List.zipIdx_cons, List.flatMap_cons, List.filter_append, ih, List.filter_append, hhex,
      hcolon, List.nil_append, List.map_cons, List.flatten_cons]

lemma groups_injective : Function.Injective groups := by
  intro a a' h
  have hfilter := congrArg (List.filter isUpperHex) h
  rw [groups, groups, filter_zipIdx, filter_zipIdx] at hfilter
  have hvalue := congrArg (value 16) hfilter
  rw [value_pairs, value_pairs] at hvalue
  exact List.ofFn_injective (bigEndian_injective (by simp) hvalue)

lemma documented_sampleNames : Documented sampleNames where
  host6_address a s a' s' h := by
    have htake : ∀ (a : Fin 16 → BitVec 8) (s : BitVec 32),
        (sampleNames.host6 a s).takeWhile (· ≠ '%') = groups a := by
      intro a s
      refine (span_append (fun c hc => decide_eq_true ?_) ?_).1
      · exact ne_of_mem_of_not_mem hc (not_mem_groups (by decide) (by decide))
      · split_ifs <;> simp
    have heq := congrArg (List.takeWhile (· ≠ '%')) h
    rw [htake, htake] at heq
    exact groups_injective heq
  host6_inet a s b h := by
    have hcount := congrArg (List.count '.') h
    have hgroups : (groups a).count '.' = 0 :=
      List.count_eq_zero.mpr (not_mem_groups (by decide) (by decide))
    have hscope : (if s = 0 then [] else '%' :: to_string s.toNat).count '.' = 0 := by
      split_ifs
      · rfl
      · rw [List.count_cons_of_ne (by decide), List.count_eq_zero]
        exact not_mem_to_string _
    rw [sampleNames, List.count_append, hgroups, hscope, count_inet_ntoa] at hcount
    cases hcount
  other_host bytes host service h := by cases h

/-- 2011:1111:1111:1111:1111:1111:1111:1111 with port 80 -/
def samplePeer : Peer where
  bytes := [10, 0, 0, 80, 0, 0, 0, 0, 0x20] ++ List.replicate 15 0x11 ++ [0, 0, 0, 0]
  wf := .inr ⟨by decide, by decide⟩

/-- 2011:1111:1111:1111:2222:2222:2222:2222 with port 80 -/
def sampleGiven : List (BitVec 8) :=
  [10, 0, 0, 80, 0, 0, 0, 0, 0x20] ++ List.replicate 7 0x11 ++ List.replicate 8 0x22 ++
    [0, 0, 0, 0]

theorem decided_iff_sample :
    Decided sampleNames samplePeer sampleGiven ↔ ¬ SameStart samplePeer sampleGiven :=
  decided_iff documented_sampleNames samplePeer sampleGiven

/-- With the one memory the two are told apart, with the other they are not. -/
theorem decided_not :
    checkSockAddr sampleNames samplePeer (fun _ => 0) sampleGiven = false ∧
      checkSockAddr sampleNames samplePeer (fun i => byteAt sampleGiven i) sampleGiven = true ∧
      getnameinfo sampleNames sampleGiven ≠ getnameinfo sampleNames samplePeer.bytes ∧
      ¬ Decided sampleNames samplePeer sampleGiven := by
  have hno : checkSockAddr sampleNames samplePeer (fun _ => 0) sampleGiven = false := by
    decide +kernel
  have hyes : checkSockAddr sampleNames samplePeer (fun i => byteAt sampleGiven i) sampleGiven =
      true := by
    decide +kernel
  refine ⟨hno, hyes, by decide +kernel, fun h => ?_⟩
  exact absurd (hno.symm.trans ((h.2 _ _).trans hyes)) Bool.false_ne_true

end Hbm.CheckSockAddr
