import Hbm.Size
import Mathlib.Data.List.Basic

/-!
The buffered reader: one scattered read fills the caller's buffer and the internal one.

What `readv` did when it was called is an argument of `recv`. The specification says where the
bytes are: what was buffered, and then what was read, is what was stored for the caller, and
then what is buffered afterwards.
-/

namespace Hbm.BufferedReader

open Hbm.Size

variable {β : Type*}

/-- `sizeof(m_buffer)`. -/
def bufferSize : ℕ := 65536

lemma ssizeMax_add_lt : ssizeMax + bufferSize < sizeMod := by decide

/-- The members of `BufferedReader`. -/
structure Reader (β : Type*) where
  buffer : List β
  fillLevel : ℕ
  alreadyRead : ℕ
  buffer_length : buffer.length = bufferSize

/-- What `readv` did: it read some bytes, met the end of the stream, or failed. -/
inductive ReadV (β : Type*)
  | data (bytes : List β)
  | eof
  | error

namespace ReadV

def ret : ReadV β → ℤ
  | .data bytes => bytes.length
  | .eof => 0
  | .error => -1

def bytes : ReadV β → List β
  | .data bytes => bytes
  | _ => []

/-- It fills the two areas in order and reads at least one byte. -/
def Fits (total : ℕ) : ReadV β → Prop
  | .data bytes => bytes ≠ [] ∧ bytes.length ≤ total
  | _ => True

end ReadV

/-- The result of `recv`: the value returned, the bytes stored from `buf` on, the members
afterwards, and whether `readv` was called. -/
structure Recv (β : Type*) where
  ret : ℤ
  stored : List β
  reader : Reader β
  called : Bool

/-- Bytes written from the start of the internal buffer on. -/
def overwrite (buffer bytes : List β) : List β :=
  bytes.take buffer.length ++ buffer.drop bytes.length

lemma overwrite_length (buffer bytes : List β) :
    (overwrite buffer bytes).length = buffer.length := by
  simp only [overwrite, List.length_append, List.length_take, List.length_drop]
  omega

def recv (r : Reader β) (desiredLen : ℕ) (k : ReadV β) : Recv β :=
  let bytesLeft := sub r.fillLevel r.alreadyRead
  if desiredLen ≤ bytesLeft then
    { ret := toSsize desiredLen
      stored := (r.buffer.drop r.alreadyRead).take desiredLen
      reader := { r with alreadyRead := add r.alreadyRead desiredLen }
      called := false }
  else if 0 < bytesLeft then
    -- a short read
    { ret := toSsize bytesLeft
      stored := (r.buffer.drop r.alreadyRead).take bytesLeft
      reader := { r with alreadyRead := r.fillLevel }
      called := false }
  else
    let retVal := k.ret
    let buffer := overwrite r.buffer (k.bytes.drop desiredLen)
    let fillLevel := if toSsize desiredLen < retVal then sub (toSize retVal) desiredLen else 0
    { ret := if toSsize desiredLen < retVal then toSsize desiredLen else retVal
      stored := k.bytes.take desiredLen
      reader := ⟨buffer, fillLevel, 0, by rw [overwrite_length, r.buffer_length]⟩
      called := true }

/-- The read position is within the fill level, and this within the buffer. -/
structure Wf (r : Reader β) : Prop where
  le : r.alreadyRead ≤ r.fillLevel
  fill : r.fillLevel ≤ bufferSize

/-- `m_buffer[m_alreadyRead..m_fillLevel)`. -/
def buffered (r : Reader β) : List β := (r.buffer.take r.fillLevel).drop r.alreadyRead

variable {r : Reader β} {desiredLen : ℕ} {k : ReadV β}

lemma buffered_length (hw : Wf r) : (buffered r).length = r.fillLevel - r.alreadyRead := by
  have := hw.fill
  rw [buffered, List.length_drop, List.length_take, r.buffer_length]
  omega

lemma buffered_take {n : ℕ} (hn : n ≤ r.fillLevel - r.alreadyRead) :
    (r.buffer.drop r.alreadyRead).take n = (buffered r).take n := by
  rw [buffered, List.drop_take, List.take_take, Nat.min_eq_left hn]

lemma bytesLeft_eq (hw : Wf r) : sub r.fillLevel r.alreadyRead = r.fillLevel - r.alreadyRead := by
  have := hw.fill
  exact sub_eq (by unfold bufferSize at this; unfold sizeMod; omega) hw.le

lemma overwrite_take {buffer bytes : List β} (h : bytes.length ≤ buffer.length) :
    (overwrite buffer bytes).take bytes.length = bytes := by
  rw [overwrite, List.take_of_length_le h, List.take_left]

lemma buffered_advance {n : ℕ} :
    buffered { r with alreadyRead := r.alreadyRead + n } = (buffered r).drop n := by
  rw [buffered, buffered, List.drop_drop]

lemma buffered_exhausted : buffered { r with alreadyRead := r.fillLevel } = [] := by
  rw [buffered]
  exact List.drop_eq_nil_of_le (List.length_take_le _ _)

/-- What one call does. -/
structure Delivers (r : Reader β) (desiredLen : ℕ) (k : ReadV β) (x : Recv β) : Prop where
  wf : Wf x.reader
  /-- the bytes are handed on in order, none lost and none twice -/
  stream : buffered r ++ (if x.called then k.bytes else []) = x.stored ++ buffered x.reader
  short : x.stored.length ≤ desiredLen
  ret : x.ret = x.stored.length ∨ x.ret = -1 ∧ x.stored = [] ∧ x.called = true ∧ k = .error
  /-- `readv` is called only with nothing buffered -/
  called : x.called = true → buffered r = [] ∧ 0 < desiredLen
  eof : x.ret = 0 → 0 < desiredLen → x.called = true ∧ k = .eof

lemma Delivers.ret_le {x : Recv β} (h : Delivers r desiredLen k x) : x.ret ≤ desiredLen := by
  have hshort := h.short
  rcases h.ret with hret | ⟨hret, -⟩ <;> omega

/-- The members after a call of `readv`. -/
def refill (r : Reader β) (desiredLen : ℕ) (k : ReadV β) : Reader β :=
  ⟨overwrite r.buffer (k.bytes.drop desiredLen), k.bytes.length - desiredLen, 0,
    by rw [overwrite_length, r.buffer_length]⟩

lemma buffered_refill (h : k.bytes.length ≤ desiredLen + bufferSize) :
    buffered (refill r desiredLen k) = k.bytes.drop desiredLen := by
  have hlen : (k.bytes.drop desiredLen).length = k.bytes.length - desiredLen := List.length_drop
  unfold buffered refill
  rw [List.drop_zero, ← hlen]
  exact overwrite_take (by rw [hlen, r.buffer_length]; omega)

lemma wf_refill (h : k.bytes.length ≤ desiredLen + bufferSize) : Wf (refill r desiredLen k) :=
  ⟨Nat.zero_le _, by unfold refill; simp only; omega⟩

lemma ReadV.Fits.length_le {total : ℕ} (h : k.Fits total) : k.bytes.length ≤ total := by
  cases k with
  | data bytes => exact h.2
  | eof => exact Nat.zero_le _
  | error => exact Nat.zero_le _

/-- The first way out: there is more than or as much as desired. -/
lemma recv_ready (hw : Wf r) (hlen : desiredLen ≤ ssizeMax)
    (h : desiredLen ≤ r.fillLevel - r.alreadyRead) :
    recv r desiredLen k =
      { ret := desiredLen
        stored := (buffered r).take desiredLen
        reader := { r with alreadyRead := r.alreadyRead + desiredLen }
        called := false } := by
  have hmax := ssizeMax_add_lt
  have hle := hw.le
  have hfill := hw.fill
  have hcast : toSsize desiredLen = desiredLen := toSsize_eq (by omega)
  have hadd : add r.alreadyRead desiredLen = r.alreadyRead + desiredLen := add_eq (by omega)
  unfold recv
  simp only [bytesLeft_eq hw, if_pos h, buffered_take h, hadd, hcast]

/-- The second way out: a short read of the rest. -/
lemma recv_rest (hw : Wf r) (hlen : desiredLen ≤ ssizeMax)
    (h : ¬ desiredLen ≤ r.fillLevel - r.alreadyRead) (hpos : 0 < r.fillLevel - r.alreadyRead) :
    recv r desiredLen k =
      { ret := (buffered r).length
        stored := buffered r
        reader := { r with alreadyRead := r.fillLevel }
        called := false } := by
  have hlen' := buffered_length hw
  have hall : (r.buffer.drop r.alreadyRead).take (r.fillLevel - r.alreadyRead) = buffered r := by
    rw [buffered_take (Nat.le_refl _), List.take_of_length_le (Nat.le_of_eq hlen')]
  have hcast : toSsize (r.fillLevel - r.alreadyRead) = (r.fillLevel - r.alreadyRead : ℕ) :=
    toSsize_eq (by omega)
  unfold recv
  simp only [bytesLeft_eq hw, if_neg h, if_pos hpos, hall, hcast, hlen']

/-- The third way out: nothing is buffered and `readv` fills both areas. -/
lemma recv_readv (hw : Wf r) (hlen : desiredLen ≤ ssizeMax)
    (hk : k.Fits (desiredLen + bufferSize)) (h : r.fillLevel = r.alreadyRead)
    (hpos : 0 < desiredLen) :
    recv r desiredLen k =
      { ret := if desiredLen < k.bytes.length then desiredLen else k.ret
        stored := k.bytes.take desiredLen
        reader := refill r desiredLen k
        called := true } := by
  have hmax := ssizeMax_add_lt
  have hle := hk.length_le
  have hcast : toSsize desiredLen = desiredLen := toSsize_eq (by omega)
  have hleft : sub r.fillLevel r.alreadyRead = 0 := by rw [bytesLeft_eq hw, h, Nat.sub_self]
  unfold recv
  simp only [hleft, if_neg (show ¬ desiredLen ≤ 0 by omega), Nat.lt_irrefl, if_false, hcast]
  cases k with
  | data bytes =>
    simp only [ReadV.ret, ReadV.bytes, Int.ofNat_lt, refill] at hle ⊢
    by_cases hlt : desiredLen < bytes.length
    · have hfill : sub (toSize bytes.length) desiredLen = bytes.length - desiredLen := by
        rw [toSize_natCast (by omega), sub_eq (by omega) (Nat.le_of_lt hlt)]
      simp only [hlt, if_true, hfill]
    · have hfill : bytes.length - desiredLen = 0 := by omega
      simp only [hlt, if_false, hfill]
  | eof =>
    have hneg : ¬ (desiredLen : ℤ) < 0 := by omega
    simp [ReadV.ret, ReadV.bytes, refill, hneg]
  | error =>
    have hneg : ¬ (desiredLen : ℤ) < -1 := by omega
    simp [ReadV.ret, ReadV.bytes, refill, hneg]

lemma delivers_ready (hw : Wf r) (hlen : desiredLen ≤ ssizeMax)
    (h : desiredLen ≤ r.fillLevel - r.alreadyRead) :
    Delivers r desiredLen k (recv r desiredLen k) := by
  have hst : ((buffered r).take desiredLen).length = desiredLen := by
    rw [List.length_take, buffered_length hw, Nat.min_eq_left h]
  have hle := hw.le
  rw [recv_ready hw hlen h]
  refine ⟨⟨?_, hw.fill⟩, ?_, List.length_take_le _ _, Or.inl (by rw [hst]), nofun, ?_⟩
  · show r.alreadyRead + desiredLen ≤ r.fillLevel
    omega
  · show buffered r ++ [] = (buffered r).take desiredLen ++ _
    rw [buffered_advance, List.take_append_drop, List.append_nil]
  · intro h0 hpos
    exact absurd (show (desiredLen : ℤ) = 0 from h0) (by omega)

lemma delivers_rest (hw : Wf r) (hlen : desiredLen ≤ ssizeMax)
    (h : ¬ desiredLen ≤ r.fillLevel - r.alreadyRead) (hpos : 0 < r.fillLevel - r.alreadyRead) :
    Delivers r desiredLen k (recv r desiredLen k) := by
  have hlen' := buffered_length hw
  rw [recv_rest hw hlen h hpos]
  refine ⟨⟨Nat.le_refl _, hw.fill⟩, ?_, ?_, Or.inl rfl, nofun, ?_⟩
  · show buffered r ++ [] = buffered r ++ _
    rw [buffered_exhausted]
  · show (buffered r).length ≤ desiredLen
    omega
  · intro h0 _
    exact absurd (show ((buffered r).length : ℤ) = 0 from h0) (by omega)

lemma delivers_readv (hw : Wf r) (hlen : desiredLen ≤ ssizeMax)
    (hk : k.Fits (desiredLen + bufferSize)) (h : r.fillLevel = r.alreadyRead)
    (hpos : 0 < desiredLen) : Delivers r desiredLen k (recv r desiredLen k) := by
  have hempty : buffered r = [] := by
    apply List.eq_nil_of_length_eq_zero
    rw [buffered_length hw, h, Nat.sub_self]
  rw [recv_readv hw hlen hk h hpos]
  refine ⟨wf_refill hk.length_le, ?_, List.length_take_le _ _, ?_, fun _ => ⟨hempty, hpos⟩, ?_⟩
  · simp only [if_true, hempty, List.nil_append, buffered_refill hk.length_le,
      List.take_append_drop]
  · cases k with
    | data bytes =>
      left
      by_cases hlt : desiredLen < bytes.length
      · simp only [ReadV.bytes, hlt, if_true, List.length_take]
        omega
      · simp only [ReadV.ret, ReadV.bytes, hlt, if_false, List.length_take]
        omega
    | eof => exact Or.inl (by simp [ReadV.ret, ReadV.bytes])
    | error => exact Or.inr (by simp [ReadV.ret, ReadV.bytes])
  · intro h0 _
    refine ⟨rfl, ?_⟩
    cases k with
    | data bytes =>
      have hne := List.length_pos_iff.2 hk.1
      by_cases hlt : desiredLen < bytes.length
      · simp only [ReadV.bytes, hlt, if_true] at h0
        omega
      · simp only [ReadV.ret, ReadV.bytes, hlt, if_false] at h0
        omega
    | eof => rfl
    | error => simp [ReadV.ret, ReadV.bytes] at h0

/-- **One call** of `recv`, for every mix of the requested and the buffered amount and every
result of `readv`. -/
theorem recv_delivers (hw : Wf r) (hlen : desiredLen ≤ ssizeMax)
    (hk : k.Fits (desiredLen + bufferSize)) : Delivers r desiredLen k (recv r desiredLen k) := by
  have hle := hw.le
  by_cases h1 : desiredLen ≤ r.fillLevel - r.alreadyRead
  · exact delivers_ready hw hlen h1
  by_cases h2 : 0 < r.fillLevel - r.alreadyRead
  · exact delivers_rest hw hlen h1 h2
  · exact delivers_readv hw hlen hk (by omega) (by omega)

end Hbm.BufferedReader
