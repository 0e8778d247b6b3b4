import Hbm.Split
import Hbm.Strtoul
import Mathlib.Data.List.Forall2
import Mathlib.Tactic.NormNum

/-!
`getHardwareInfo`: the hardware address of an interface, as a number and as a text.

The number is put together from characters that have a sign. A byte with the top bit set is widened
with ones, which fill everything in front of it.
-/

namespace Hbm.HardwareInfo

open Hbm.Size Hbm.Split Hbm.Strtoul

def ARPHRD_ETHER : ℕ := 1
def ARPHRD_IEEE1394 : ℕ := 24

/-- What `SIOCGIFHWADDR` fills in. The code reads 16 bytes, which is two more than the array
`sa_data` has. -/
structure Ifreq where
  sa_family : ℕ
  sa_data : Fin 16 → BitVec 8

structure hardwareInfo_t where
  hwAddrString : List Char
  fwGuid : BitVec 64
  isHardware : Bool

/-- What the calls answer for an interface: the socket, the result of `ioctl`, and the `ifreq`. -/
structure Query where
  sd : ℤ
  ioctl : ℤ
  ifr : Ifreq

/-! ### The two encoders -/

/-- One turn of the loop; the conversion from `char` keeps the sign. -/
def shiftIn (fwGuid : BitVec 64) (c : BitVec 8) : BitVec 64 :=
  (fwGuid <<< 8) ||| c.signExtend 64

def guid (bs : List (BitVec 8)) : BitVec 64 := bs.foldl shiftIn 0

/-- `uppercase`, `hex`, `setfill('0')` and `setw(2)` -/
def hexByte (c : BitVec 8) : List Char :=
  let ds := (Nat.toDigits 16 c.toNat).map Char.toUpper
  List.replicate (2 - ds.length) '0' ++ ds

/-- One turn of the loop over the bytes with their index. -/
def printByte (stream : List Char) (turn : BitVec 8 × ℕ) : List Char :=
  (if 0 < turn.2 then stream ++ [':'] else stream) ++ hexByte turn.1

def hwAddress (bs : List (BitVec 8)) : List Char := bs.zipIdx.foldl printByte []

def data (ifr : Ifreq) (n : ℕ) : List (BitVec 8) := (List.ofFn ifr.sa_data).take n

/-- What is made of the answer of the driver. -/
def evaluate (ifr : Ifreq) : hardwareInfo_t :=
  if ifr.sa_family = ARPHRD_ETHER then ⟨hwAddress (data ifr 6), 0, true⟩
  else if ifr.sa_family = ARPHRD_IEEE1394 then
    ⟨hwAddress (data ifr 16), guid (data ifr 8), true⟩
  else ⟨hwAddress (data ifr 0), 0, false⟩

/-- The name that fits into `ifr_name`. -/
def ifrName (interfaceName : List Char) : List Char := (cStr interfaceName).take 15

def getHardwareInfo (query : List Char → Query) (interfaceName : List Char) : hardwareInfo_t :=
  let answer := query (ifrName interfaceName)
  if answer.sd = -1 then ⟨[], 0, false⟩
  else if answer.ioctl = 1 then ⟨[], 0, false⟩
  else evaluate answer.ifr

/-! ### The number -/

variable {bs : List (BitVec 8)} {b : BitVec 8} {ifr : Ifreq}

/-- The value of bytes, the first one on top. -/
def bigEndian (bs : List (BitVec 8)) : ℕ := bs.foldl (fun n b => 256 * n + b.toNat) 0

lemma bigEndian_concat (bs : List (BitVec 8)) (b : BitVec 8) :
    bigEndian (bs ++ [b]) = 256 * bigEndian bs + b.toNat := List.foldl_append

lemma guid_concat (bs : List (BitVec 8)) (b : BitVec 8) :
    guid (bs ++ [b]) = shiftIn (guid bs) b := List.foldl_append

lemma bigEndian_lt (bs : List (BitVec 8)) : bigEndian bs < 256 ^ bs.length := by
  induction bs using List.reverseRecOn with
  | nil => exact Nat.one_pos
  | append_singleton bs b ih =>
    have hb : b.toNat < 256 := b.isLt
    rw [bigEndian_concat, List.length_append, List.length_singleton, Nat.pow_succ]
    omega

/-- A byte without the top bit is appended. -/
lemma toNat_shiftIn_pos (g : BitVec 64) (hb : b.msb = false) :
    (shiftIn g b).toNat = 256 * (g.toNat % 2 ^ 56) + b.toNat := by
  have hlt : b.toNat < 2 ^ 8 := b.isLt
  have hshift : g.toNat <<< 8 % 2 ^ 64 = 2 ^ 8 * (g.toNat % 2 ^ 56) := by
    rw [Nat.shiftLeft_eq]
    omega
  rw [shiftIn, BitVec.signExtend_eq_setWidth_of_msb_false hb, BitVec.toNat_or,
    BitVec.toNat_shiftLeft, hshift, BitVec.toNat_setWidth,
    Nat.mod_eq_of_lt (show b.toNat < 2 ^ 64 by omega), ← Nat.two_pow_add_eq_or_of_lt hlt]

/-- A byte with the top bit sets all bits in front of it. -/
lemma shiftIn_neg (g : BitVec 64) (hb : b.msb = true) : shiftIn g b = b.signExtend 64 := by
  refine BitVec.eq_of_getLsbD_eq fun i hi => ?_
  rw [shiftIn, BitVec.getLsbD_or, BitVec.getLsbD_shiftLeft, BitVec.getLsbD_signExtend, hb]
  by_cases h8 : i < 8 <;> simp [h8, hi]

lemma toNat_shiftIn_neg (g : BitVec 64) (hb : b.msb = true) :
    (shiftIn g b).toNat = 256 * (2 ^ 56 - 1) + b.toNat := by
  have hlt : b.toNat < 2 ^ 8 := b.isLt
  rw [shiftIn_neg g hb, BitVec.toNat_signExtend, hb, BitVec.toNat_setWidth]
  simp only [if_true]
  omega

/-- A byte with the top bit has only 0xFF in front of it. -/
def Filled (bs : List (BitVec 8)) : Prop := bs.Pairwise fun c b => b.msb → c = 0xFF

instance (bs : List (BitVec 8)) : Decidable (Filled bs) :=
  inferInstanceAs (Decidable (List.Pairwise _ _))

lemma filled_concat : Filled (bs ++ [b]) ↔ Filled bs ∧ ∀ c ∈ bs, b.msb → c = 0xFF := by
  simp [Filled, List.pairwise_append]

lemma bigEndian_full : bigEndian bs + 1 = 256 ^ bs.length ↔ ∀ c ∈ bs, c = 0xFF := by
  induction bs using List.reverseRecOn with
  | nil => simp [bigEndian]
  | append_singleton bs b ih =>
    have hbs := bigEndian_lt bs
    have hb : b.toNat < 256 := b.isLt
    have hfull : b = 0xFF ↔ b.toNat = 255 := BitVec.toNat_inj.symm
    rw [bigEndian_concat, List.length_append, List.length_singleton, Nat.pow_succ,
      List.forall_mem_append, ← ih, List.forall_mem_singleton, hfull]
    omega

lemma filled_of_full (h : ∀ c ∈ bs, c = 0xFF) : Filled bs :=
  List.pairwise_of_forall_mem_list fun c hc _ _ _ => h c hc

lemma mod_shift (x P : ℕ) {n : ℕ} (hn : n < 256) :
    (256 * x + n) % (P * 256) = 256 * (x % P) + n := by
  have hdiv : (256 * x + n) / 256 = x := by omega
  rw [Nat.mul_comm P, Nat.mod_mul, hdiv]
  omega

/-- As far as the bytes reach, the number is right exactly if they are filled: a byte with the top
bit leaves nothing of what was there before it. -/
lemma guid_mod_iff (h : bs.length ≤ 8) :
    (guid bs).toNat % 256 ^ bs.length = bigEndian bs ↔ Filled bs := by
  induction bs using List.reverseRecOn with
  | nil => simp [Filled, bigEndian, Nat.mod_one]
  | append_singleton bs b ih =>
    rw [List.length_append, List.length_singleton] at h ⊢
    have hb : b.toNat < 256 := b.isLt
    have hdvd : 256 ^ bs.length ∣ 2 ^ 56 := by
      have hpow : (2 : ℕ) ^ 56 = 256 ^ 7 := by norm_num
      rw [hpow]
      exact Nat.pow_dvd_pow 256 (by omega)
    rw [guid_concat, bigEndian_concat, filled_concat, Nat.pow_succ]
    cases hmsb : b.msb with
    | false =>
      rw [toNat_shiftIn_pos _ hmsb, mod_shift _ _ hb, Nat.mod_mod_of_dvd _ hdvd, ← ih (by omega)]
      simp
    | true =>
      obtain ⟨k, hk⟩ := hdvd
      have hpos : 0 < 256 ^ bs.length := Nat.pow_pos (by decide)
      have hrest : (2 ^ 56 - 1) % 256 ^ bs.length = 256 ^ bs.length - 1 := by
        have hmod := Nat.mul_sub_mod (hk ▸ by decide : 0 < 256 ^ bs.length * k)
        rwa [← hk, Nat.zero_mod] at hmod
      have hfull : bigEndian bs + 1 = 256 ^ bs.length ↔ ∀ c ∈ bs, c = 0xFF := bigEndian_full
      rw [toNat_shiftIn_neg _ hmsb, mod_shift _ _ hb, hrest]
      constructor
      · intro heq
        have hall := hfull.mp (by omega)
        exact ⟨filled_of_full hall, fun c hc _ => hall c hc⟩
      · rintro ⟨-, hall⟩
        have := hfull.mpr fun c hc => hall c hc rfl
        omega

/-! ### The text -/

def isUpperHex (c : Char) : Bool := c ∈ "0123456789ABCDEF".toList

lemma isUpperHex_digitChar {n : ℕ} (h : n < 16) : isUpperHex (Nat.digitChar n).toUpper := by
  have hall : ∀ n < 16, isUpperHex (Nat.digitChar n).toUpper := by decide
  exact hall n h

/-- The higher and the lower half of the byte. -/
lemma hexByte_eq (b : BitVec 8) : hexByte b =
    [(Nat.digitChar (b.toNat / 16)).toUpper, (Nat.digitChar (b.toNat % 16)).toUpper] := by
  have hb := b.isLt
  by_cases h : b.toNat < 16
  · rw [hexByte, Nat.toDigits_of_lt_base h, Nat.div_eq_of_lt h, Nat.mod_eq_of_lt h]
    rfl
  · rw [hexByte, Nat.toDigits_of_base_le (by decide) (Nat.not_lt.mp h),
      Nat.toDigits_of_lt_base (by omega)]
    rfl

/-- Two digits in upper case, which decode to the byte. -/
lemma hexByte_spec (b : BitVec 8) : (hexByte b).length = 2 ∧ (hexByte b).all isUpperHex ∧
    value 16 (hexByte b) = b.toNat := by
  have hhigh : b.toNat / 16 < 16 := by
    have := b.isLt
    omega
  have hlow : b.toNat % 16 < 16 := Nat.mod_lt _ (by decide)
  rw [hexByte_eq]
  refine ⟨rfl, by simp [isUpperHex_digitChar hhigh, isUpperHex_digitChar hlow], ?_⟩
  rw [value_cons, value_cons, digit_digitChar hhigh, digit_digitChar hlow]
  simp [value]
  omega

/-- After the first byte there is a colon in front of each. -/
lemma foldl_printByte (n : ℕ) (stream : List Char) :
    (bs.zipIdx (n + 1)).foldl printByte stream =
      stream ++ bs.flatMap fun b => ':' :: hexByte b := by
  induction bs generalizing n stream with
  | nil => simp
  | cons b bs ih =>
    rw [List.zipIdx_cons, List.foldl_cons, ih, printByte, if_pos (Nat.succ_pos n)]
    simp

lemma intercalate_cons (b : BitVec 8) (bs : List (BitVec 8)) :
    [':'].intercalate ((b :: bs).map hexByte) =
      hexByte b ++ bs.flatMap fun b => ':' :: hexByte b := by
  induction bs generalizing b with
  | nil => simp [List.intercalate_singleton]
  | cons c bs ih =>
    have hne : (c :: bs).map hexByte ≠ [] := List.cons_ne_nil _ _
    rw [List.map_cons, List.intercalate_cons_of_ne_nil hne, ih]
    simp

lemma hwAddress_eq (bs : List (BitVec 8)) :
    hwAddress bs = [':'].intercalate (bs.map hexByte) := by
  cases bs with
  | nil => rfl
  | cons b bs =>
    rw [hwAddress, List.zipIdx_cons, List.foldl_cons, foldl_printByte, intercalate_cons]
    simp [printByte]

lemma hexByte_ne_nil (b : BitVec 8) : hexByte b ≠ [] := by
  rintro h
  have hlen := (hexByte_spec b).1
  rw [h] at hlen
  cases hlen

lemma hwAddress_ne_nil (h : bs ≠ []) : hwAddress bs ≠ [] := by
  obtain ⟨b, bs, rfl⟩ := List.exists_cons_of_ne_nil h
  rw [hwAddress_eq, intercalate_cons]
  exact List.append_ne_nil_of_left_ne_nil (hexByte_ne_nil b) _

lemma not_mem_hexByte (b : BitVec 8) : ':' ∉ hexByte b := by
  intro h
  have hhex := List.all_eq_true.mp (hexByte_spec b).2.1 _ h
  exact absurd hhex (by decide)

lemma length_hwAddress (bs : List (BitVec 8)) : (hwAddress bs).length ≤ 3 * bs.length := by
  cases bs with
  | nil => exact Nat.le_refl 0
  | cons b bs =>
    have hrest : (bs.flatMap fun b => ':' :: hexByte b).length = 3 * bs.length := by
      induction bs with
      | nil => rfl
      | cons c bs ih =>
        rw [List.flatMap_cons, List.length_append, ih, List.length_cons, (hexByte_spec c).1,
          List.length_cons]
        omega
    rw [hwAddress_eq, intercalate_cons, List.length_append, hrest, (hexByte_spec b).1,
      List.length_cons]
    omega

/-- Splitting at the colons gives the bytes back. -/
lemma splitChar_hwAddress (h : bs ≠ []) (hlen : bs.length ≤ 16) :
    splitChar (hwAddress bs) ':' = some (bs.map hexByte) := by
  have hfits : Fits (hwAddress bs) := by
    have hlength := length_hwAddress bs
    unfold Fits npos sizeMod
    omega
  rw [splitChar_eq hfits, hwAddress_eq, List.splitOn_intercalate]
  · intro part hpart
    obtain ⟨b, -, rfl⟩ := List.mem_map.mp hpart
    exact not_mem_hexByte b
  · exact mt List.map_eq_nil_iff.mp h

/-- The pairs one behind the other are the number. -/
lemma value_pairs (bs : List (BitVec 8)) : value 16 (bs.map hexByte).flatten = bigEndian bs := by
  induction bs using List.reverseRecOn with
  | nil => rfl
  | append_singleton bs b ih =>
    have hsquare : 16 ^ 2 = 256 := by norm_num
    rw [List.map_append, List.flatten_append, List.map_singleton, List.flatten_singleton,
      value_append, (hexByte_spec b).1, (hexByte_spec b).2.2, ih, bigEndian_concat, hsquare]

/-! ### What is found out about an interface -/

/-- The driver answers with the address of an interface of the family. -/
def Sees (query : List Char → Query) (interfaceName : List Char) (family : ℕ)
    (address : Fin 16 → BitVec 8) : Prop :=
  (query (ifrName interfaceName)).sd ≠ -1 ∧ (query (ifrName interfaceName)).ioctl ≠ 1 ∧
    (query (ifrName interfaceName)).ifr = ⟨family, address⟩

/-- The number is the big-endian value of the first eight bytes, and that of the first eight pairs
of the text. -/
def EncodesGuid (info : hardwareInfo_t) (address : Fin 16 → BitVec 8) : Prop :=
  info.fwGuid = BitVec.ofNat 64 (bigEndian ((List.ofFn address).take 8)) ∧
    ∃ pairs, splitChar info.hwAddrString ':' = some pairs ∧
      info.fwGuid.toNat = value 16 (pairs.take 8).flatten

/-- The text is six pairs of hexadecimal digits, which decode to the first six bytes. -/
def EncodesMac (info : hardwareInfo_t) (address : Fin 16 → BitVec 8) : Prop :=
  ∃ pairs, splitChar info.hwAddrString ':' = some pairs ∧ pairs.length = 6 ∧
    List.Forall₂ (fun pair b => pair.length = 2 ∧ pair.all isUpperHex ∧ value 16 pair = b.toNat)
      pairs ((List.ofFn address).take 6)

variable {query : List Char → Query} {x y e : List Char} {a b' c : Fin 16 → BitVec 8}

lemma getHardwareInfo_eq {family : ℕ} (h : Sees query x family a) :
    getHardwareInfo query x = evaluate ⟨family, a⟩ := by
  obtain ⟨hsd, hioctl, hifr⟩ := h
  rw [getHardwareInfo, if_neg hsd, if_neg hioctl, hifr]

lemma evaluate_ether (a : Fin 16 → BitVec 8) :
    evaluate ⟨ARPHRD_ETHER, a⟩ = ⟨hwAddress ((List.ofFn a).take 6), 0, true⟩ := by
  rw [evaluate, if_pos rfl, data]

lemma evaluate_ieee1394 (a : Fin 16 → BitVec 8) : evaluate ⟨ARPHRD_IEEE1394, a⟩ =
    ⟨hwAddress ((List.ofFn a).take 16), guid ((List.ofFn a).take 8), true⟩ := by
  rw [evaluate, if_neg (by decide : ¬ ARPHRD_IEEE1394 = ARPHRD_ETHER), if_pos rfl, data, data]

/-- A text for every interface that is taken for hardware. -/
lemma hwAddrString_ne_nil (h : (getHardwareInfo query x).isHardware) :
    (getHardwareInfo query x).hwAddrString ≠ [] := by
  unfold getHardwareInfo evaluate at h ⊢
  dsimp only at h ⊢
  have hne : ∀ n, data (query (ifrName x)).ifr (n + 1) ≠ [] := fun n => by simp [data]
  split_ifs at h ⊢
  · exact hwAddress_ne_nil (hne 5)
  · exact hwAddress_ne_nil (hne 15)

lemma bigEndian_injective {cs : List (BitVec 8)} (hlen : bs.length = cs.length)
    (h : bigEndian bs = bigEndian cs) : bs = cs := by
  induction bs using List.reverseRecOn generalizing cs with
  | nil => exact (List.length_eq_zero_iff.mp hlen.symm).symm
  | append_singleton bs b ih =>
    cases cs using List.reverseRecOn with
    | nil => simp at hlen
    | append_singleton cs c =>
      have hb : b.toNat < 256 := b.isLt
      have hc : c.toNat < 256 := c.isLt
      rw [bigEndian_concat, bigEndian_concat] at h
      rw [List.length_append, List.length_append] at hlen
      have hlast : b = c := BitVec.toNat_inj.mp (by omega)
      rw [ih (Nat.add_right_cancel hlen) (by omega), hlast]

lemma guid_eq_iff (h : bs.length = 8) : guid bs = BitVec.ofNat 64 (bigEndian bs) ↔ Filled bs := by
  have hmod := guid_mod_iff (Nat.le_of_eq h)
  have hlt := bigEndian_lt bs
  have hguid := (guid bs).isLt
  have hpow : 256 ^ 8 = 2 ^ 64 := by norm_num
  rw [h, hpow] at hmod hlt
  rw [← hmod, Nat.mod_eq_of_lt hguid, ← BitVec.toNat_inj, BitVec.toNat_ofNat, Nat.mod_eq_of_lt hlt]

lemma bigEndian_take_lt (a : Fin 16 → BitVec 8) :
    bigEndian ((List.ofFn a).take 8) < 2 ^ 64 := by
  have hlen : ((List.ofFn a).take 8).length = 8 := by simp
  have hlt := bigEndian_lt ((List.ofFn a).take 8)
  rw [hlen] at hlt
  norm_num at hlt ⊢
  exact hlt

lemma encodesGuid_iff (h : Sees query x ARPHRD_IEEE1394 a) :
    EncodesGuid (getHardwareInfo query x) a ↔ Filled ((List.ofFn a).take 8) := by
  have hlen : ((List.ofFn a).take 8).length = 8 := by simp
  have hlt := bigEndian_take_lt a
  have hne : (List.ofFn a).take 16 ≠ [] := by simp
  have hsplit := splitChar_hwAddress hne (List.length_take_le 16 _)
  rw [EncodesGuid, getHardwareInfo_eq h, evaluate_ieee1394, guid_eq_iff hlen]
  refine ⟨fun h => h.1, fun h => ⟨h, _, hsplit, ?_⟩⟩
  rw [← List.map_take, value_pairs, List.take_take, (guid_eq_iff hlen).mpr h, BitVec.toNat_ofNat,
    Nat.mod_eq_of_lt hlt]
  rfl

lemma encodesMac (h : Sees query e ARPHRD_ETHER c) : EncodesMac (getHardwareInfo query e) c := by
  have hne : (List.ofFn c).take 6 ≠ [] := by simp
  have hsplit := splitChar_hwAddress hne ((List.length_take_le 6 _).trans (by decide))
  rw [getHardwareInfo_eq h, evaluate_ether]
  refine ⟨_, hsplit, by simp, ?_⟩
  rw [List.forall₂_map_left_iff, List.forall₂_same]
  exact fun b _ => hexByte_spec b

/-- **Number and text encode the same bytes**, and different bytes give different numbers, exactly
where every byte with the top bit has only 0xFF in front of it. The text of an Ethernet address is
right in any case. -/
theorem encodes_iff (hx : Sees query x ARPHRD_IEEE1394 a) (hy : Sees query y ARPHRD_IEEE1394 b')
    (he : Sees query e ARPHRD_ETHER c) :
    (EncodesGuid (getHardwareInfo query x) a ∧ EncodesGuid (getHardwareInfo query y) b' ∧
      ((List.ofFn a).take 8 ≠ (List.ofFn b').take 8 →
        (getHardwareInfo query x).fwGuid ≠ (getHardwareInfo query y).fwGuid) ∧
      EncodesMac (getHardwareInfo query e) c) ↔
    Filled ((List.ofFn a).take 8) ∧ Filled ((List.ofFn b').take 8) := by
  rw [← encodesGuid_iff hx, ← encodesGuid_iff hy]
  refine ⟨fun h => ⟨h.1, h.2.1⟩, fun ⟨ha, hb⟩ => ⟨ha, hb, fun hne heq => hne ?_, encodesMac he⟩⟩
  have hnat := congrArg BitVec.toNat (ha.1.symm.trans (heq.trans hb.1))
  rw [BitVec.toNat_ofNat, BitVec.toNat_ofNat, 
    Nat.mod_eq_of_lt (bigEndian_take_lt a), Nat.mod_eq_of_lt (bigEndian_take_lt b')] at hnat
  exact bigEndian_injective (by simp) hnat

/-- An address with a second byte that has the top bit. -/
def sampleAddress (first : BitVec 8) (i : Fin 16) : BitVec 8 :=
  if i = 0 then first else if i = 1 then 0x80 else 0

/-- Two FireWire interfaces, and an Ethernet interface. -/
def sampleQuery (name : List Char) : Query :=
  ⟨3, 0, if name = "fw0".toList then ⟨ARPHRD_IEEE1394, sampleAddress 0⟩
    else if name = "fw1".toList then ⟨ARPHRD_IEEE1394, sampleAddress 1⟩
    else ⟨ARPHRD_ETHER, sampleAddress 0⟩⟩

/-- The three interfaces together. -/
theorem encodes_iff_sample :
    (EncodesGuid (getHardwareInfo sampleQuery "fw0".toList) (sampleAddress 0) ∧
      EncodesGuid (getHardwareInfo sampleQuery "fw1".toList) (sampleAddress 1) ∧
      ((List.ofFn (sampleAddress 0)).take 8 ≠ (List.ofFn (sampleAddress 1)).take 8 →
        (getHardwareInfo sampleQuery "fw0".toList).fwGuid ≠
          (getHardwareInfo sampleQuery "fw1".toList).fwGuid) ∧
      EncodesMac (getHardwareInfo sampleQuery "eth0".toList) (sampleAddress 0)) ↔
    Filled ((List.ofFn (sampleAddress 0)).take 8) ∧
      Filled ((List.ofFn (sampleAddress 1)).take 8) :=
  encodes_iff ⟨by decide, by decide, rfl⟩ ⟨by decide, by decide, rfl⟩ ⟨by decide, by decide, rfl⟩

/-- Both numbers are the same, and neither is the value of the bytes. -/
theorem encodes_collision :
    (List.ofFn (sampleAddress 0)).take 8 ≠ (List.ofFn (sampleAddress 1)).take 8 ∧
      (getHardwareInfo sampleQuery "fw0".toList).fwGuid = 0xFF80000000000000 ∧
      (getHardwareInfo sampleQuery "fw1".toList).fwGuid = 0xFF80000000000000 ∧
      (getHardwareInfo sampleQuery "fw0".toList).hwAddrString =
        "00:80:00:00:00:00:00:00:00:00:00:00:00:00:00:00".toList ∧
      ¬ EncodesGuid (getHardwareInfo sampleQuery "fw0".toList) (sampleAddress 0) := by
  refine ⟨by decide, by decide +kernel, by decide +kernel, by decide +kernel, fun h => ?_⟩
  exact absurd h.1 (by decide +kernel)

end Hbm.HardwareInfo
