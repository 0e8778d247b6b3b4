import Hbm.AddressCheck
import Hbm.Loop
import Mathlib.Data.Nat.Find

/-!
`Ipv4Address::getNetmaskFromPrefix` and `getPrefixFromNetmask`.

A bit moves through the netmask from the left: a first loop counts ones, a second one looks for a
one behind the first zero. Bits are counted from the left here, as the loops do.
-/

namespace Hbm.Netmask

open Hbm.Strtoul Hbm.Dotted Hbm.Inet Hbm.AddressCheck

/-- The turns of the loop that are left; `ones` of them push a one. -/
def pushBits : ℕ → ℕ → BitVec 32 → BitVec 32
  | 0, _, subnet => subnet
  | count + 1, ones, subnet =>
    if ones ≠ 0 then pushBits count (ones - 1) (subnet <<< 1 ||| 1)
    else pushBits count ones (subnet <<< 1)

/-- `n` is the prefix. -/
def getNetmaskFromPrefix (n : ℕ) : List Char :=
  if n > 32 then [] else inet_ntoa (pushBits 32 n 0)

/-- A turn of the first loop, with the mask and the ones so far. -/
def onesBody (ipv4Subnetmask : BitVec 32) : BitVec 32 × ℕ → (BitVec 32 × ℕ) ⊕ (BitVec 32 × ℕ)
  | (mask, ones) =>
    if ipv4Subnetmask &&& mask ≠ 0 then
      let mask := mask >>> 1
      if mask ≠ 0 then .inl (mask, ones + 1) else .inr (mask, ones + 1)
    else .inr (mask, ones)

/-- A turn of the second loop, with the mask and `pos`. -/
def gapsBody (ipv4Subnetmask : BitVec 32) (ones : ℕ) : BitVec 32 × ℕ → (BitVec 32 × ℕ) ⊕ ℤ
  | (mask, pos) =>
    if pos < 32 then
      let mask := mask >>> 1
      if ipv4Subnetmask &&& mask ≠ 0 then .inr (-1) else .inl (mask, pos + 1)
    else .inr ones

/-- More than 32 turns are not needed. -/
def getPrefixFromNetmask (netmask : List Char) : Option ℤ :=
  let ipv4Subnetmask := inet_addr netmask
  if ipv4Subnetmask = INADDR_NONE ∧ netmask ≠ "255.255.255.255".toList then some (-1)
  else do
    let (mask, ones) ← Loop.run (onesBody ipv4Subnetmask) 33 (0x80000000, 0)
    Loop.run (gapsBody ipv4Subnetmask ones) 33 (mask, ones + 1)

/-! ### The mask -/

/-- The first `n` bits from the left are ones, and the others zeros. -/
def Contiguous (m : BitVec 32) (n : ℕ) : Prop := n ≤ 32 ∧ ∀ i < 32, m.getMsbD i = decide (i < n)

/-- The bit at place `i`; there is none from place 32 on. -/
def bit (i : ℕ) : BitVec 32 := 0x80000000#32 >>> i

variable {m : BitVec 32} {n i k : ℕ} {z : ℤ}

lemma bit_succ (i : ℕ) : bit i >>> 1 = bit (i + 1) := (BitVec.shiftRight_add _ i 1).symm

lemma getMsbD_bit (i j : ℕ) : (bit i).getMsbD j = (decide (j < 32) && decide (j = i)) := by
  have htop : ∀ k < 32, (0x80000000#32).getMsbD k = decide (k = 0) := by decide
  rw [bit, BitVec.getMsbD_ushiftRight]
  by_cases hj : j < 32
  · rw [htop (j - i) (by omega), Bool.eq_iff_iff]
    simp only [hj, decide_true, Bool.true_and, Bool.and_eq_true, Bool.not_eq_true',
      decide_eq_false_iff_not, decide_eq_true_eq]
    omega
  · simp [hj]

lemma bit_eq_zero (h : 32 ≤ i) : bit i = 0 := by
  apply BitVec.eq_of_getMsbD_eq
  intro j hj
  rw [getMsbD_bit]
  simp
  omega

lemma and_bit_ne_zero (h : i < 32) : m &&& bit i ≠ 0 ↔ m.getMsbD i := by
  constructor
  · intro hne
    by_contra hbit
    refine hne (BitVec.eq_of_getMsbD_eq fun j hj => ?_)
    rw [BitVec.getMsbD_and, getMsbD_bit]
    by_cases hji : j = i
    · rw [hji, Bool.eq_false_of_not_eq_true hbit]
      simp
    · simp [hji]
  · intro hbit h0
    have hand : (m &&& bit i).getMsbD i = true := by
      rw [BitVec.getMsbD_and, getMsbD_bit, hbit]
      simp [h]
    rw [h0] at hand
    simp at hand

lemma bit_ne_zero (h : i < 32) : bit i ≠ 0 := by
  intro h0
  have hbit : (bit i).getMsbD i = true := by
    rw [getMsbD_bit]
    simp [h]
  rw [h0] at hbit
  simp at hbit

/-! ### The loops -/

/-- The first loop stops behind the first `n` ones. -/
lemma run_onesBody (hn : n ≤ 32) (hones : ∀ i < n, m.getMsbD i) (hstop : ¬ m.getMsbD n) (hi : i ≤ n)
    (hi32 : i < 32) (hk : n - i < k) :
    Loop.run (onesBody m) k (bit i, i) = some (bit n, n) := by
  induction k generalizing i with
  | zero => omega
  | succ k ih =>
    rcases Nat.lt_or_ge i n with hlt | hge
    · have hbit : m &&& bit i ≠ 0 := (and_bit_ne_zero hi32).mpr (hones i hlt)
      rcases Nat.lt_or_ge (i + 1) 32 with hnext | hend
      · have hbody : onesBody m (bit i, i) = .inl (bit (i + 1), i + 1) := by
          simp only [onesBody, if_pos hbit, bit_succ, if_pos (bit_ne_zero hnext)]
        rw [Loop.run_inl hbody]
        exact ih (by omega) hnext (by omega)
      · obtain rfl : n = i + 1 := by omega
        refine Loop.run_inr ?_
        simp only [onesBody, if_pos hbit, bit_succ, bit_eq_zero hend, ne_eq, not_true_eq_false,
          if_false]
    · obtain rfl : i = n := by omega
      have hbit : ¬ m &&& bit i ≠ 0 := fun h => hstop ((and_bit_ne_zero hi32).mp h)
      refine Loop.run_inr ?_
      simp only [onesBody, if_neg hbit]

/-- The second loop looks at all places behind. -/
lemma run_gapsBody (hi : i < 33) (hk : 32 - i < k) :
    Loop.run (gapsBody m n) k (bit i, i + 1) = some (-1) ∧ (∃ j, i < j ∧ m.getMsbD j) ∨
      Loop.run (gapsBody m n) k (bit i, i + 1) = some (n : ℤ) ∧ ∀ j, i < j → ¬ m.getMsbD j := by
  induction k generalizing i with
  | zero => omega
  | succ k ih =>
    rcases Nat.lt_or_ge (i + 1) 32 with hlt | hge
    · by_cases hbit : m.getMsbD (i + 1)
      · refine .inl ⟨Loop.run_inr ?_, i + 1, Nat.lt_succ_self i, hbit⟩
        have hand := (and_bit_ne_zero hlt).mpr hbit
        simp only [gapsBody, if_pos hlt, bit_succ, if_pos hand]
      · have hand : ¬ m &&& bit (i + 1) ≠ 0 := fun h => hbit ((and_bit_ne_zero hlt).mp h)
        have hbody : gapsBody m n (bit i, i + 1) = .inl (bit (i + 1), i + 1 + 1) := by
          simp only [gapsBody, if_pos hlt, bit_succ, if_neg hand]
        rw [Loop.run_inl hbody]
        rcases ih (i := i + 1) (by omega) (by omega) with ⟨hrun, j, hj, hgap⟩ | ⟨hrun, hno⟩
        · exact .inl ⟨hrun, j, by omega, hgap⟩
        · refine .inr ⟨hrun, fun j hj => ?_⟩
          rcases Nat.lt_or_ge (i + 1) j with hlater | hhere
          · exact hno j hlater
          · obtain rfl : j = i + 1 := by omega
            exact hbit
    · refine .inr ⟨Loop.run_inr ?_, fun j hj => ?_⟩
      · simp only [gapsBody, if_neg (Nat.not_lt.mpr hge)]
      · rw [BitVec.getMsbD_of_ge _ _ (by omega)]
        exact Bool.false_ne_true

/-! ### Contiguous masks -/

/-- The ones at the left of a mask. -/
lemma exists_ones (m : BitVec 32) : ∃ n ≤ 32, (∀ i < n, m.getMsbD i) ∧ ¬ m.getMsbD n := by
  have hend : ¬ m.getMsbD 32 := by
    rw [BitVec.getMsbD_of_ge _ _ (Nat.le_refl 32)]
    exact Bool.false_ne_true
  have h : ∃ n, ¬ m.getMsbD n := ⟨32, hend⟩
  exact ⟨Nat.find h, Nat.find_min' h hend, fun i hi => not_not.mp (Nat.find_min h hi),
    Nat.find_spec h⟩

lemma Contiguous.unique (h : Contiguous m n) (h' : Contiguous m k) : n = k := by
  obtain ⟨hn, hbits⟩ := h
  obtain ⟨hk, hbits'⟩ := h'
  rcases Nat.lt_trichotomy n k with hlt | heq | hgt
  · have hbit := (hbits n (by omega)).symm.trans (hbits' n (by omega))
    simp [hlt] at hbit
  · exact heq
  · have hbit := (hbits k (by omega)).symm.trans (hbits' k (by omega))
    simp [hgt] at hbit

lemma Contiguous.no_gap (h : Contiguous m k) (hzero : ¬ m.getMsbD n) (hi : n < i) :
    ¬ m.getMsbD i := by
  intro hbit
  obtain ⟨hk, hbits⟩ := h
  have hi32 : i < 32 := Nat.lt_of_not_le fun hle => by simp [hle] at hbit
  have hik : i < k := by simpa [hbits i hi32] using hbit
  refine hzero ?_
  rw [hbits n (by omega)]
  exact decide_eq_true (by omega)

lemma contiguous_of_no_gap (hn : n ≤ 32) (hones : ∀ i < n, m.getMsbD i) (hzero : ¬ m.getMsbD n)
    (hno : ∀ i, n < i → ¬ m.getMsbD i) : Contiguous m n := by
  refine ⟨hn, fun i _ => ?_⟩
  rcases Nat.lt_trichotomy i n with hlt | rfl | hgt
  · simp [hones i hlt, hlt]
  · simp [hzero]
  · simp [hno i hgt, Nat.not_lt.mpr (Nat.le_of_lt hgt)]

/-- The two loops on a mask with `n` ones at the left. -/
lemma getPrefixFromNetmask_eq (hn : n ≤ 32) (hones : ∀ i < n, m.getMsbD i)
    (hzero : ¬ m.getMsbD n) : getPrefixFromNetmask (inet_ntoa m) =
      Loop.run (gapsBody m n) 33 (bit n, n + 1) := by
  have hvalid : ¬ (m = INADDR_NONE ∧ inet_ntoa m ≠ "255.255.255.255".toList) := by
    rintro ⟨rfl, hne⟩
    exact hne (by decide)
  have hrun := run_onesBody hn hones hzero (Nat.zero_le n) (by decide) (by omega : n - 0 < 33)
  have hstart : bit 0 = 0x80000000 := by decide
  rw [hstart] at hrun
  rw [getPrefixFromNetmask, inet_addr_inet_ntoa, if_neg hvalid, hrun]
  rfl

lemma getPrefixFromNetmask_cases (m : BitVec 32) :
    (∃ n : ℕ, Contiguous m n ∧ getPrefixFromNetmask (inet_ntoa m) = some (n : ℤ)) ∨
      (∀ n, ¬ Contiguous m n) ∧ getPrefixFromNetmask (inet_ntoa m) = some (-1) := by
  obtain ⟨n, hn, hones, hzero⟩ := exists_ones m
  rw [getPrefixFromNetmask_eq hn hones hzero]
  rcases run_gapsBody (n := n) (by omega : n < 33) (by omega : 32 - n < 33) with
    ⟨hrun, i, hi, hbit⟩ | ⟨hrun, hno⟩
  · exact .inr ⟨fun k hk => hk.no_gap hzero hi hbit, hrun⟩
  · exact .inl ⟨n, contiguous_of_no_gap hn hones hzero hno, hrun⟩

/-- The bits that are pushed. -/
lemma getLsbD_pushBits (s : BitVec 32) (hi : i < 32) : (pushBits k n s).getLsbD i =
    if i < k then decide (k - 1 - i < n) else s.getLsbD (i - k) := by
  induction k generalizing n s with
  | zero => simp [pushBits]
  | succ k ih =>
    rw [pushBits]
    by_cases hn : n ≠ 0
    · rw [if_pos hn, ih]
      rcases Nat.lt_trichotomy i k with hlt | rfl | hgt
      · have hlt' : i < k + 1 := by omega
        rw [if_pos hlt, if_pos hlt']
        congr 1
        exact propext (by omega)
      · rw [if_neg (Nat.lt_irrefl i), if_pos (Nat.lt_succ_self i), BitVec.getLsbD_or]
        simp [Nat.pos_of_ne_zero hn]
      · have hge : ¬ i < k := by omega
        have hge' : ¬ i < k + 1 := by omega
        have hpos : i - k ≠ 0 := by omega
        have hlast : ¬ i - k < 1 := by omega
        have hsub : i - k - 1 = i - (k + 1) := by omega
        rw [if_neg hge, if_neg hge', BitVec.getLsbD_or, BitVec.getLsbD_shiftLeft]
        simp [hlast, hsub, hpos, Nat.lt_of_le_of_lt (Nat.sub_le i k) hi]
    · obtain rfl : n = 0 := not_not.mp hn
      rw [if_neg hn, ih]
      rcases Nat.lt_trichotomy i k with hlt | rfl | hgt
      · have hlt' : i < k + 1 := by omega
        rw [if_pos hlt, if_pos hlt']
        simp
      · rw [if_neg (Nat.lt_irrefl i), if_pos (Nat.lt_succ_self i), BitVec.getLsbD_shiftLeft]
        simp
      · have hge : ¬ i < k := by omega
        have hge' : ¬ i < k + 1 := by omega
        have hlast : ¬ i - k < 1 := by omega
        have hsub : i - k - 1 = i - (k + 1) := by omega
        rw [if_neg hge, if_neg hge', BitVec.getLsbD_shiftLeft]
        simp [hlast, hsub, Nat.lt_of_le_of_lt (Nat.sub_le i k) hi]

lemma contiguous_pushBits (hn : n ≤ 32) : Contiguous (pushBits 32 n 0) n := by
  refine ⟨hn, fun i hi => ?_⟩
  rw [BitVec.getMsbD_eq_getLsbD, getLsbD_pushBits _ (by omega), if_pos (by omega)]
  simp only [hi, decide_true, Bool.true_and]
  congr 1
  exact propext (by omega)

lemma contiguous_iff_eq (hn : n ≤ 32) : Contiguous m n ↔ m = pushBits 32 n 0 := by
  constructor
  · intro h
    apply BitVec.eq_of_getMsbD_eq
    intro i hi
    rw [h.2 i hi, (contiguous_pushBits hn).2 i hi]
  · rintro rfl
    exact contiguous_pushBits hn

lemma eq_getNetmaskFromPrefix_iff : inet_ntoa m = getNetmaskFromPrefix n ↔ Contiguous m n := by
  unfold getNetmaskFromPrefix
  split
  · exact iff_of_false (inet_ntoa_ne_nil m) fun h => absurd h.1 (by omega)
  · rw [contiguous_iff_eq (by omega)]
    exact inet_ntoa_injective.eq_iff

lemma getPrefixFromNetmask_eq_iff : getPrefixFromNetmask (inet_ntoa m) = some (n : ℤ) ↔
    Contiguous m n := by
  rcases getPrefixFromNetmask_cases m with ⟨k, hk, hrun⟩ | ⟨hno, hrun⟩
  · rw [hrun, Option.some.injEq, Int.natCast_inj]
    constructor
    · rintro rfl
      exact hk
    · exact fun h => hk.unique h
  · rw [hrun, Option.some.injEq]
    refine iff_of_false ?_ (hno n)
    omega

/-- **Netmask and prefix are inverse.** A mask has the prefix `n` exactly if it consists of `n` ones
and zeros behind them, and the prefix -1 if it has another form; the netmask of a prefix is the only
one with this prefix. -/
theorem prefix_netmask (m : BitVec 32) :
    (getPrefixFromNetmask (inet_ntoa m) = some (-1) ↔ ∀ n, ¬ Contiguous m n) ∧
      (∀ n : ℕ, getPrefixFromNetmask (inet_ntoa m) = some (n : ℤ) ↔ Contiguous m n) ∧
      (∀ n : ℕ, getPrefixFromNetmask (inet_ntoa m) = some (n : ℤ) ↔
        inet_ntoa m = getNetmaskFromPrefix n) ∧
      ∀ n : Fin 33, getPrefixFromNetmask (getNetmaskFromPrefix n) = some (n.val : ℤ) := by
  refine ⟨?_, fun n => getPrefixFromNetmask_eq_iff, fun n => ?_, fun n => ?_⟩
  · rcases getPrefixFromNetmask_cases m with ⟨k, hk, hrun⟩ | ⟨hno, hrun⟩
    · rw [hrun, Option.some.injEq]
      refine iff_of_false (by omega) fun hno => hno k hk
    · exact iff_of_true hrun hno
  · rw [getPrefixFromNetmask_eq_iff, eq_getNetmaskFromPrefix_iff]
  · have hn : ¬ n.val > 32 := by omega
    rw [getNetmaskFromPrefix, if_neg hn, getPrefixFromNetmask_eq_iff]
    exact contiguous_pushBits (by omega)

/-! ### The other check -/

lemma isValidNetmask_iff : isValidNetmask (inet_ntoa m) ↔ m ≠ 0 ∧ m ≠ 0xffffffff := by
  have hne : ¬ (inet_ntoa m).count '.' ≠ 3 := not_not.mpr (count_inet_ntoa m)
  rw [isValidNetmask, if_neg hne, inet_aton_inet_ntoa]
  dsimp only
  split_ifs <;> simp_all

/-- The two checks agree on a mask. -/
def ChecksAgree (m : BitVec 32) : Prop :=
  isValidNetmask (inet_ntoa m) ↔
    ∃ n : ℕ, 1 ≤ n ∧ n ≤ 31 ∧ getPrefixFromNetmask (inet_ntoa m) = some (n : ℤ)

lemma contiguous_zero : Contiguous m 0 ↔ m = 0 := contiguous_iff_eq (by decide)

lemma contiguous_full : Contiguous m 32 ↔ m = 0xffffffff := by
  have hfull : pushBits 32 32 0 = 0xffffffff := by decide +kernel
  rw [contiguous_iff_eq (Nat.le_refl 32), hfull]

/-- **The two checks agree** exactly on the masks without a gap. -/
theorem checksAgree_iff (m : BitVec 32) : ChecksAgree m ↔ ∃ n, Contiguous m n := by
  simp only [ChecksAgree, isValidNetmask_iff, getPrefixFromNetmask_eq_iff, ne_eq,
    ← contiguous_zero, ← contiguous_full]
  constructor
  · intro hagree
    by_contra hno
    push Not at hno
    obtain ⟨n, -, -, hn⟩ := hagree.mp ⟨hno 0, hno 32⟩
    exact hno n hn
  · rintro ⟨n, hn⟩
    constructor
    · rintro ⟨hzero, hfull⟩
      have hne : n ≠ 0 := fun h => hzero (h ▸ hn)
      have hne32 : n ≠ 32 := fun h => hfull (h ▸ hn)
      have hle := hn.1
      exact ⟨n, by omega, by omega, hn⟩
    · rintro ⟨k, hk1, hk31, hk⟩
      refine ⟨fun h => ?_, fun h => ?_⟩
      · have := hk.unique h
        omega
      · have := hk.unique h
        omega

/-- A mask with a gap is a netmask to one of them only. -/
theorem checksAgree_gap : inet_ntoa 0xff00ff00 = "255.0.255.0".toList ∧
    isValidNetmask "255.0.255.0".toList = true ∧
    getPrefixFromNetmask "255.0.255.0".toList = some (-1) := by
  decide +kernel

end Hbm.Netmask
