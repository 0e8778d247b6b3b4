import Hbm.BufferedReader
import Hbm.WindowsBlock

/-!
The buffered reader under Windows.

There may be two data reads in one call, with a signalling read of no bytes between them. The
first data read is checked; the second one is not, and if it fails, `numberOfBytesRecvd` is
whatever it was. Otherwise a call does what the Linux version does with a single `readv`.
-/

namespace Hbm.WindowsReader

open Hbm.Size Hbm.BufferedReader Hbm.Run
open Hbm.WindowsBlock (WsaError)

variable {β : Type*}

/-- What `WSARecv` did with the two data buffers: it read bytes, none at the end of the stream,
or it failed, and then `numberOfBytesRecvd` may be anything. -/
inductive WsaRecv (β : Type*)
  | ok (bytes : List β)
  | failed (e : WsaError) (numberOfBytesRecvd : ℕ)

/-- What `WSARecv` did with the signalling buffer. -/
inductive Signal
  | done
  | failed (e : WsaError)

/-- What happens at one call of `recv`: a signalling read is still pending, or there are reads,
each of which counts only if it is made. -/
inductive Outcome (β : Type*)
  | pending
  | reads (first : WsaRecv β) (signal : Signal) (second : WsaRecv β)

namespace WsaRecv

def bytes : WsaRecv β → List β
  | .ok bytes => bytes
  | .failed _ _ => []

def numberOfBytesRecvd : WsaRecv β → ℕ
  | .ok bytes => bytes.length
  | .failed _ n => n

def error : WsaRecv β → Option WsaError
  | .ok _ => none
  | .failed e _ => some e

/-- No more is read than there is space for, and the count is a DWORD. -/
def Fits (total : ℕ) : WsaRecv β → Prop
  | .ok bytes => bytes.length ≤ total
  | .failed _ n => n < 2 ^ 32

/-- The same outcome of `readv`. -/
def readv : WsaRecv β → ReadV β
  | .ok [] => .eof
  | .ok bytes => .data bytes
  | .failed _ _ => .error

end WsaRecv

/-- The result of `recv`; `reads` are the data reads that were made. -/
structure Recv (β : Type*) where
  ret : ℤ
  stored : List β
  reader : Reader β
  lastError : Option WsaError
  reads : List (WsaRecv β)

/-- From the comparison of `numberOfBytesRecvd` on; the code has this after each data read. -/
def filled (r : Reader β) (desiredLen : ℕ) (k : WsaRecv β) (reads : List (WsaRecv β)) : Recv β :=
  let len := desiredLen % 2 ^ 32
  let buffer := overwrite r.buffer (k.bytes.drop len)
  let n := k.numberOfBytesRecvd
  { ret := if len < n then toInt desiredLen else toInt n
    stored := k.bytes.take len
    reader := ⟨buffer, if len < n then sub n desiredLen else 0, 0,
      by rw [overwrite_length, r.buffer_length]⟩
    lastError := k.error
    reads := reads }

/-- Nothing was read. -/
def failed (r : Reader β) (e : WsaError) (reads : List (WsaRecv β)) : Recv β :=
  { ret := -1
    stored := []
    reader := { r with fillLevel := 0, alreadyRead := 0 }
    lastError := some e
    reads := reads }

def recv (r : Reader β) (desiredLen : ℕ) (o : Outcome β) : Recv β :=
  let bytesLeft := sub r.fillLevel r.alreadyRead
  if desiredLen ≤ bytesLeft then
    { ret := toInt desiredLen
      stored := (r.buffer.drop r.alreadyRead).take desiredLen
      reader := { r with alreadyRead := add r.alreadyRead desiredLen }
      lastError := none
      reads := [] }
  else if 0 < bytesLeft then
    -- a short read
    { ret := toInt bytesLeft
      stored := (r.buffer.drop r.alreadyRead).take bytesLeft
      reader := { r with alreadyRead := r.fillLevel }
      lastError := none
      reads := [] }
  else
    match o with
    | .pending =>
      { ret := -1, stored := [], reader := r, lastError := some .ioPending, reads := [] }
    | .reads (.ok bytes) _ _ => filled r desiredLen (.ok bytes) [.ok bytes]
    | .reads (.failed e n) signal second =>
      if e = .wouldBlock then
        match signal with
        -- there was something to be received: read once more, without a look at `retVal`
        | .done => filled r desiredLen second [.failed e n, second]
        | .failed e' => failed r e' [.failed e n]
      else failed r e [.failed e n]

def Outcome.Fits (total : ℕ) : Outcome β → Prop
  | .pending => True
  | .reads first _ second => first.Fits total ∧ second.Fits total

/-- The second data read is made and fails. -/
def Outcome.Unchecked : Outcome β → Prop
  | .reads (.failed .wouldBlock _) .done (.failed _ _) => True
  | _ => False

/-- The same outcome of the one `readv` of the Linux version. -/
def Outcome.readv : Outcome β → ReadV β
  | .reads (.ok bytes) _ _ => (WsaRecv.ok bytes).readv
  | .reads (.failed .wouldBlock _) .done second => second.readv
  | _ => .error

/-- The bytes that the data reads gave. -/
def taken (x : Recv β) : List β := x.reads.flatMap (·.bytes)

/-! ### One call -/

variable {r : Reader β} {desiredLen : ℕ} {o : Outcome β}

lemma recv_ready (hw : Wf r) (hlen : desiredLen < 2 ^ 31)
    (h : desiredLen ≤ r.fillLevel - r.alreadyRead) :
    recv r desiredLen o =
      { ret := desiredLen
        stored := (buffered r).take desiredLen
        reader := { r with alreadyRead := r.alreadyRead + desiredLen }
        lastError := none
        reads := [] } := by
  have hle := hw.le
  have hfill := hw.fill
  have hadd : add r.alreadyRead desiredLen = r.alreadyRead + desiredLen :=
    add_eq (by unfold sizeMod bufferSize at *; omega)
  have hcast : toInt desiredLen = desiredLen := toInt_eq (by omega)
  unfold recv
  simp only [bytesLeft_eq hw, if_pos h, buffered_take h, hadd, hcast]

lemma recv_rest (hw : Wf r) (h : ¬ desiredLen ≤ r.fillLevel - r.alreadyRead)
    (hpos : 0 < r.fillLevel - r.alreadyRead) :
    recv r desiredLen o =
      { ret := (buffered r).length
        stored := buffered r
        reader := { r with alreadyRead := r.fillLevel }
        lastError := none
        reads := [] } := by
  have hfill := hw.fill
  have hlen' := buffered_length hw
  have hall : (r.buffer.drop r.alreadyRead).take (r.fillLevel - r.alreadyRead) = buffered r := by
    rw [buffered_take (Nat.le_refl _), List.take_of_length_le (Nat.le_of_eq hlen')]
  have hcast : toInt (r.fillLevel - r.alreadyRead) = (r.fillLevel - r.alreadyRead : ℕ) :=
    toInt_eq (by unfold bufferSize at hfill; omega)
  unfold recv
  simp only [bytesLeft_eq hw, if_neg h, if_pos hpos, hall, hcast, hlen']

lemma left_eq_zero (hw : Wf r) (h : buffered r = []) : sub r.fillLevel r.alreadyRead = 0 := by
  rw [bytesLeft_eq hw, ← buffered_length hw, h, List.length_nil]

/-- A data read that succeeded. -/
lemma filled_ok {bytes : List β} {reads : List (WsaRecv β)} (hlen : desiredLen < 2 ^ 31)
    (hb : bytes.length ≤ desiredLen + bufferSize) :
    filled r desiredLen (.ok bytes) reads =
      { ret := if desiredLen < bytes.length then desiredLen else bytes.length
        stored := bytes.take desiredLen
        reader := refill r desiredLen (.data bytes)
        lastError := none
        reads := reads } := by
  have hmod : desiredLen % 2 ^ 32 = desiredLen := Nat.mod_eq_of_lt (by omega)
  have hcast : toInt desiredLen = desiredLen := toInt_eq (by omega)
  have hret : (if desiredLen < bytes.length then (desiredLen : ℤ) else toInt bytes.length) =
      if desiredLen < bytes.length then (desiredLen : ℤ) else bytes.length := by
    split
    · rfl
    · exact toInt_eq (by omega)
  have hfill : (if desiredLen < bytes.length then sub bytes.length desiredLen else 0) =
      bytes.length - desiredLen := by
    split
    · exact sub_eq (by unfold sizeMod bufferSize at *; omega) (by omega)
    · omega
  unfold filled refill
  simp only [WsaRecv.bytes, WsaRecv.numberOfBytesRecvd, WsaRecv.error, ReadV.bytes, hmod, hcast,
    hret, hfill]

namespace WsaRecv

lemma readv_fits {k : WsaRecv β} {total : ℕ} (h : k.Fits total) : k.readv.Fits total := by
  cases k with
  | failed e n => trivial
  | ok bytes =>
    cases bytes with
    | nil => trivial
    | cons b bytes => exact ⟨nofun, h⟩

lemma readv_bytes (bytes : List β) : (WsaRecv.ok bytes).readv.bytes = bytes := by
  cases bytes <;> rfl

lemma readv_ret (bytes : List β) : (WsaRecv.ok bytes).readv.ret = bytes.length := by
  cases bytes <;> rfl

end WsaRecv

lemma Outcome.readv_fits {total : ℕ} (h : o.Fits total) : o.readv.Fits total := by
  cases o with
  | pending => trivial
  | reads first signal second =>
    unfold Outcome.readv
    split
    · rename_i heq
      cases heq
      exact WsaRecv.readv_fits h.1
    · rename_i heq
      cases heq
      exact WsaRecv.readv_fits h.2
    · trivial

/-- The two versions do the same. -/
structure Matches (x : Recv β) (y : BufferedReader.Recv β) (k : ReadV β) : Prop where
  ret : x.ret = y.ret
  stored : x.stored = y.stored
  buffered : buffered x.reader = buffered y.reader
  wf : Wf x.reader
  taken : taken x = if y.called then k.bytes else []

lemma filled_matches {bytes : List β} {reads : List (WsaRecv β)} (hw : Wf r)
    (hlen : desiredLen < 2 ^ 31) (hb : bytes.length ≤ desiredLen + bufferSize)
    (hnil : r.fillLevel = r.alreadyRead) (hpos : 0 < desiredLen)
    (hreads : reads.flatMap (·.bytes) = bytes) :
    Matches (filled r desiredLen (.ok bytes) reads)
      (BufferedReader.recv r desiredLen (WsaRecv.ok bytes).readv) (WsaRecv.ok bytes).readv := by
  have hfits : (WsaRecv.ok bytes).readv.Fits (desiredLen + bufferSize) := WsaRecv.readv_fits hb
  have hbytes := WsaRecv.readv_bytes bytes
  have hrefill : refill r desiredLen (WsaRecv.ok bytes).readv =
      refill r desiredLen (.data bytes) := by
    simp only [refill, hbytes]
    rfl
  rw [filled_ok hlen hb, recv_readv hw (by unfold ssizeMax; omega) hfits hnil hpos, hrefill]
  exact ⟨by simp only [hbytes, WsaRecv.readv_ret], by simp only [hbytes], rfl,
    wf_refill (k := .data bytes) hb, by simp only [hbytes, if_true, taken, hreads]⟩

/-- A failed `readv`, with nothing buffered. -/
lemma linux_error (hw : Wf r) (hlen : desiredLen < 2 ^ 31) (hnil : r.fillLevel = r.alreadyRead)
    (hpos : 0 < desiredLen) :
    BufferedReader.recv r desiredLen .error =
      { ret := -1, stored := [], reader := refill r desiredLen .error, called := true } := by
  rw [recv_readv (k := .error) hw (by unfold ssizeMax; omega) trivial hnil hpos]
  simp [ReadV.bytes, ReadV.ret]

lemma buffered_error : buffered (refill r desiredLen .error) = [] :=
  (buffered_refill (k := .error) (Nat.zero_le _)).trans List.drop_nil

lemma error_matches {x : Recv β} (hw : Wf r) (hlen : desiredLen < 2 ^ 31)
    (hnil : r.fillLevel = r.alreadyRead) (hpos : 0 < desiredLen) (hret : x.ret = -1)
    (hst : x.stored = []) (hbuf : buffered x.reader = []) (hwf : Wf x.reader)
    (hreads : x.reads.flatMap (·.bytes) = []) :
    Matches x (BufferedReader.recv r desiredLen .error) .error := by
  rw [linux_error hw hlen hnil hpos]
  exact ⟨hret, hst, hbuf.trans buffered_error.symm, hwf, hreads⟩

lemma failed_matches {e : WsaError} {reads : List (WsaRecv β)} (hw : Wf r)
    (hlen : desiredLen < 2 ^ 31) (hnil : r.fillLevel = r.alreadyRead) (hpos : 0 < desiredLen)
    (hreads : reads.flatMap (·.bytes) = []) :
    Matches (failed r e reads) (BufferedReader.recv r desiredLen .error) .error :=
  error_matches hw hlen hnil hpos rfl rfl rfl ⟨Nat.le_refl _, Nat.zero_le _⟩ hreads

/-- With nothing buffered, `recv` asks the kernel. -/
lemma recv_asks (hw : Wf r) (hnil : buffered r = []) (hpos : 0 < desiredLen) :
    recv r desiredLen o =
      match o with
      | .pending =>
        { ret := -1, stored := [], reader := r, lastError := some .ioPending, reads := [] }
      | .reads (.ok bytes) _ _ => filled r desiredLen (.ok bytes) [.ok bytes]
      | .reads (.failed e n) signal second =>
        if e = .wouldBlock then
          match signal with
          | .done => filled r desiredLen second [.failed e n, second]
          | .failed e' => failed r e' [.failed e n]
        else failed r e [.failed e n] := by
  unfold recv
  simp only [left_eq_zero hw hnil, if_neg (Nat.not_le.mpr hpos), Nat.lt_irrefl, if_false]

/-- **One call** does what the Linux version does with one `readv`, unless the second data read
fails. -/
lemma recv_matches (hw : Wf r) (hlen : desiredLen < 2 ^ 31)
    (hfits : o.Fits (desiredLen + bufferSize))
    (hok : buffered r = [] → 0 < desiredLen → ¬ o.Unchecked) :
    Matches (recv r desiredLen o) (BufferedReader.recv r desiredLen o.readv) o.readv := by
  have hlen' : desiredLen ≤ ssizeMax := by unfold ssizeMax; omega
  have hle := hw.le
  have hfill := hw.fill
  by_cases h1 : desiredLen ≤ r.fillLevel - r.alreadyRead
  · rw [recv_ready hw hlen h1, BufferedReader.recv_ready hw hlen' h1]
    refine ⟨rfl, rfl, rfl, ⟨?_, hfill⟩, rfl⟩
    show r.alreadyRead + desiredLen ≤ r.fillLevel
    omega
  by_cases h2 : 0 < r.fillLevel - r.alreadyRead
  · rw [recv_rest hw h1 h2, BufferedReader.recv_rest hw hlen' h1 h2]
    exact ⟨rfl, rfl, rfl, ⟨Nat.le_refl _, hfill⟩, rfl⟩
  have heq : r.fillLevel = r.alreadyRead := by omega
  have hpos : 0 < desiredLen := by omega
  have hnil : buffered r = [] :=
    List.eq_nil_of_length_eq_zero (by rw [buffered_length hw, heq, Nat.sub_self])
  have hno := hok hnil hpos
  rw [recv_asks hw hnil hpos]
  cases o with
  | pending => exact error_matches hw hlen heq hpos rfl rfl hnil hw rfl
  | reads first signal second =>
    cases first with
    | ok bytes => exact filled_matches hw hlen hfits.1 heq hpos (List.append_nil _)
    | failed e n =>
      cases e with
      | wouldBlock =>
        cases signal with
        | failed e' => exact failed_matches hw hlen heq hpos rfl
        | done =>
          cases second with
          | ok bytes => exact filled_matches hw hlen hfits.2 heq hpos (List.append_nil _)
          | failed e' m => exact absurd trivial hno
      | _ => exact failed_matches hw hlen heq hpos rfl

/-- What is promised of one call. -/
structure Sound (r : Reader β) (desiredLen : ℕ) (x : Recv β) : Prop where
  wf : Wf x.reader
  /-- the next `ret` bytes of the stream are stored -/
  next : 0 ≤ x.ret →
    x.ret = x.stored.length ∧ buffered r ++ taken x = x.stored ++ buffered x.reader
  eof : x.ret = 0 → 0 < desiredLen → x.reads.getLast? = some (.ok [])
  failed : ∀ e n, x.reads.getLast? = some (.failed e n) → x.ret < 0 ∧ buffered x.reader = []

/-- The second data read does not fail where it is made. -/
def Checked (r : Reader β) (desiredLen : ℕ) (o : Outcome β) : Prop :=
  buffered r = [] → 0 < desiredLen → ¬ o.Unchecked

/-- The end of the stream is what the last data read reported, -/
lemma reads_of_eof (hw : Wf r) (hpos : 0 < desiredLen) (hnil : buffered r = [])
    (h : o.readv = .eof) : (recv r desiredLen o).reads.getLast? = some (.ok []) := by
  have hbytes : ∀ k : WsaRecv β, k.readv = .eof → k = .ok [] := by
    intro k hk
    cases k with
    | failed e n => cases hk
    | ok bytes => cases bytes <;> first | rfl | cases hk
  rw [recv_asks hw hnil hpos]
  cases o with
  | pending => cases h
  | reads first signal second =>
    cases first with
    | ok bytes =>
      rw [hbytes _ h]
      rfl
    | failed e n =>
      cases e with
      | wouldBlock =>
        cases signal with
        | done =>
          rw [hbytes second h]
          rfl
        | failed e' => cases h
      | _ => cases h

/-- and if the last data read failed, the outcome is a failed `readv`. -/
lemma readv_of_failed (hw : Wf r) (hlen : desiredLen < 2 ^ 31) (hok : Checked r desiredLen o)
    {e : WsaError} {n : ℕ} (h : (recv r desiredLen o).reads.getLast? = some (.failed e n)) :
    r.fillLevel = r.alreadyRead ∧ 0 < desiredLen ∧ o.readv = .error := by
  have hle := hw.le
  by_cases h1 : desiredLen ≤ r.fillLevel - r.alreadyRead
  · rw [recv_ready hw hlen h1] at h
    cases h
  by_cases h2 : 0 < r.fillLevel - r.alreadyRead
  · rw [recv_rest hw h1 h2] at h
    cases h
  have hnil : buffered r = [] := List.eq_nil_of_length_eq_zero (by rw [buffered_length hw]; omega)
  have hpos : 0 < desiredLen := by omega
  refine ⟨by omega, hpos, ?_⟩
  have hno := hok hnil hpos
  rw [recv_asks hw hnil hpos] at h
  cases o with
  | pending => rfl
  | reads first signal second =>
    cases first with
    | ok bytes => cases h
    | failed e' m =>
      cases e' with
      | wouldBlock =>
        cases signal with
        | failed e'' => rfl
        | done =>
          cases second with
          | ok bytes => cases h
          | failed e'' k => exact absurd trivial hno
      | _ => rfl

/-- A second data read that failed is reported as bytes received. -/
lemma not_sound_of_unchecked (hw : Wf r) (hlen : desiredLen < 2 ^ 31) (hnil : buffered r = [])
    (hpos : 0 < desiredLen) (hno : o.Unchecked) : ¬ Sound r desiredLen (recv r desiredLen o) := by
  match o, hno with
  | .reads (.failed .wouldBlock n) .done (.failed e m), _ =>
    intro hs
    rw [recv_asks hw hnil hpos] at hs
    obtain ⟨hret, -⟩ := hs.failed e m rfl
    have hmod : desiredLen % 2 ^ 32 = desiredLen := Nat.mod_eq_of_lt (by omega)
    have hcast : toInt desiredLen = desiredLen := toInt_eq (by omega)
    simp only [if_true, filled, WsaRecv.numberOfBytesRecvd, hmod, hcast] at hret
    split at hret
    · omega
    · have hcast' : toInt m = m := toInt_eq (by omega)
      omega

/-- **Exactly the unchecked read** makes a call report what was not read. -/
lemma sound_iff (hw : Wf r) (hlen : desiredLen < 2 ^ 31)
    (hfits : o.Fits (desiredLen + bufferSize)) :
    Sound r desiredLen (recv r desiredLen o) ↔ Checked r desiredLen o := by
  refine ⟨fun hs hnil hpos hno => not_sound_of_unchecked hw hlen hnil hpos hno hs, fun hok => ?_⟩
  have hm := recv_matches hw hlen hfits hok
  have hd := recv_delivers (k := o.readv) hw (show desiredLen ≤ ssizeMax by unfold ssizeMax; omega)
    (Outcome.readv_fits hfits)
  refine ⟨hm.wf, fun hret => ⟨?_, ?_⟩, fun hret hpos => ?_, fun e n hlast => ?_⟩
  · rw [hm.ret, hm.stored]
    rcases hd.ret with h | ⟨h, -⟩
    · exact h
    · have hneg := hm.ret
      omega
  · rw [hm.taken, hm.stored, hm.buffered]
    exact hd.stream
  · rw [hm.ret] at hret
    obtain ⟨hcalled, heof⟩ := hd.eof hret hpos
    exact reads_of_eof hw hpos (hd.called hcalled).1 heof
  · obtain ⟨hnil, hpos, herror⟩ := readv_of_failed hw hlen hok hlast
    have hlinux := linux_error hw hlen hnil hpos
    rw [hm.ret, hm.buffered, herror, hlinux]
    exact ⟨Int.negSucc_lt_zero 0, buffered_error⟩

/-! ### Runs -/

/-- `read` and `results` record what the kernel gave and what each call returned and stored. -/
structure St (β : Type*) where
  reader : Reader β
  read : List β
  results : List (ℤ × List β)

structure Label (β : Type*) where
  desiredLen : ℕ
  outcome : Outcome β

instance (k : WsaRecv β) (total : ℕ) : Decidable (k.Fits total) :=
  match k with
  | .ok _ => inferInstanceAs (Decidable (_ ≤ _))
  | .failed _ _ => inferInstanceAs (Decidable (_ < _))

instance (o : Outcome β) (total : ℕ) : Decidable (o.Fits total) :=
  match o with
  | .pending => inferInstanceAs (Decidable True)
  | .reads _ _ _ => inferInstanceAs (Decidable (_ ∧ _))

instance (k : ReadV β) (total : ℕ) : Decidable (k.Fits total) :=
  match k with
  | .data _ => inferInstanceAs (Decidable (_ ∧ _))
  | .eof => inferInstanceAs (Decidable True)
  | .error => inferInstanceAs (Decidable True)

def step (s : St β) (l : Label β) : Option (St β) :=
  if l.desiredLen < 2 ^ 31 ∧ l.outcome.Fits (l.desiredLen + bufferSize) then
    let x := recv s.reader l.desiredLen l.outcome
    some ⟨x.reader, s.read ++ taken x, s.results ++ [(x.ret, x.stored)]⟩
  else none

/-- The Linux version. -/
def linuxStep (s : St β) (l : ℕ × ReadV β) : Option (St β) :=
  if l.2.Fits (l.1 + bufferSize) then
    let x := BufferedReader.recv s.reader l.1 l.2
    some ⟨x.reader, s.read ++ if x.called then l.2.bytes else [], s.results ++ [(x.ret, x.stored)]⟩
  else none

def start (buffer : List β) (h : buffer.length = bufferSize) : St β := ⟨⟨buffer, 0, 0, h⟩, [], []⟩

/-- The same call, with the same outcome, under Linux. -/
def Label.readv (l : Label β) : ℕ × ReadV β := (l.desiredLen, l.outcome.readv)

def SoundCall (s : St β) (l : Label β) : Prop :=
  Sound s.reader l.desiredLen (recv s.reader l.desiredLen l.outcome)

def CheckedCall (s : St β) (l : Label β) : Prop := Checked s.reader l.desiredLen l.outcome

/-- The bytes the calls have stored, in order. -/
def delivered (s : St β) : List β := s.results.flatMap (·.2)

/-- Every byte read is stored or buffered. -/
structure Inv (s : St β) : Prop where
  wf : Wf s.reader
  read : s.read = delivered s ++ buffered s.reader

/-- The Windows reader and the Linux reader hold the same bytes and have done the same. -/
structure Alike (s t : St β) : Prop where
  wf : Wf s.reader
  wf' : Wf t.reader
  buffered : buffered s.reader = buffered t.reader
  read : s.read = t.read
  results : s.results = t.results

variable {s t : St β} {l : Label β}

lemma step_some (h : step s l = some t) :
    (l.desiredLen < 2 ^ 31 ∧ l.outcome.Fits (l.desiredLen + bufferSize)) ∧
      t = ⟨(recv s.reader l.desiredLen l.outcome).reader,
        s.read ++ taken (recv s.reader l.desiredLen l.outcome),
        s.results ++ [((recv s.reader l.desiredLen l.outcome).ret,
          (recv s.reader l.desiredLen l.outcome).stored)]⟩ := by
  simp only [step] at h
  split at h
  · exact ⟨‹_›, (Option.some.inj h).symm⟩
  · cases h

/-- What `recv` does depends on what is buffered only. -/
lemma recv_congr {r r' : Reader β} {n : ℕ} {k : ReadV β} (hw : Wf r) (hw' : Wf r')
    (hn : n ≤ ssizeMax) (hk : k.Fits (n + bufferSize)) (h : buffered r = buffered r') :
    (BufferedReader.recv r n k).ret = (BufferedReader.recv r' n k).ret ∧
      (BufferedReader.recv r n k).stored = (BufferedReader.recv r' n k).stored ∧
      (BufferedReader.recv r n k).called = (BufferedReader.recv r' n k).called ∧
      buffered (BufferedReader.recv r n k).reader =
        buffered (BufferedReader.recv r' n k).reader := by
  have hle := hw.le
  have hle' := hw'.le
  have hlen : r.fillLevel - r.alreadyRead = r'.fillLevel - r'.alreadyRead := by
    rw [← buffered_length hw, ← buffered_length hw', h]
  by_cases h1 : n ≤ r.fillLevel - r.alreadyRead
  · rw [BufferedReader.recv_ready hw hn h1, BufferedReader.recv_ready hw' hn (hlen ▸ h1), h,
      buffered_advance, buffered_advance, h]
    exact ⟨rfl, rfl, rfl, rfl⟩
  by_cases h2 : 0 < r.fillLevel - r.alreadyRead
  · rw [BufferedReader.recv_rest hw hn h1 h2,
      BufferedReader.recv_rest hw' hn (hlen ▸ h1) (hlen ▸ h2), h, buffered_exhausted,
      buffered_exhausted]
    exact ⟨rfl, rfl, rfl, rfl⟩
  · rw [recv_readv hw hn hk (by omega) (by omega), recv_readv hw' hn hk (by omega) (by omega),
      buffered_refill hk.length_le, buffered_refill hk.length_le]
    exact ⟨rfl, rfl, rfl, rfl⟩

lemma step_inv (hi : Inv s) (hok : CheckedCall s l) (h : step s l = some t) : Inv t := by
  obtain ⟨⟨hlen, hfits⟩, rfl⟩ := step_some h
  have hm := recv_matches hi.wf hlen hfits hok
  have hd := recv_delivers (k := l.outcome.readv) hi.wf
    (show l.desiredLen ≤ ssizeMax by unfold ssizeMax; omega) (Outcome.readv_fits hfits)
  refine ⟨hm.wf, ?_⟩
  have hstream := hd.stream
  rw [← hm.taken, ← hm.stored, ← hm.buffered] at hstream
  simp only [delivered, List.flatMap_append, List.flatMap_cons, List.flatMap_nil, List.append_nil]
  rw [hi.read, List.append_assoc, hstream, List.append_assoc]
  rfl

/-- One checked call is matched by a call of the Linux version. -/
lemma step_alike {s' : St β} (ha : Alike s s') (hok : CheckedCall s l) (h : step s l = some t) :
    ∃ t', linuxStep s' l.readv = some t' ∧ Alike t t' := by
  obtain ⟨⟨hlen, hfits⟩, rfl⟩ := step_some h
  have hlen' : l.desiredLen ≤ ssizeMax := by unfold ssizeMax; omega
  have hfits' := Outcome.readv_fits hfits
  have hm := recv_matches ha.wf hlen hfits hok
  obtain ⟨hret, hst, hcalled, hbuf⟩ := recv_congr ha.wf ha.wf' hlen' hfits' ha.buffered
  refine ⟨_, if_pos hfits', hm.wf, (recv_delivers ha.wf' hlen' hfits').wf, ?_, ?_, ?_⟩
  · exact hm.buffered.trans hbuf
  · show s.read ++ _ = s'.read ++ _
    rw [hm.taken, hcalled, ha.read]
    rfl
  · show s.results ++ _ = s'.results ++ _
    rw [hm.ret, hm.stored, hret, hst, ha.results]
    rfl

lemma start_wf (buffer : List β) (h : buffer.length = bufferSize) : Wf (start buffer h).reader :=
  ⟨Nat.le_refl _, Nat.zero_le _⟩

/-- **The Windows reader** reports only what was read, at every call of a run, exactly when no
second data read fails in it. Then what was read is what was delivered and what is buffered, and
the Linux reader returns and stores the same for the same outcomes. -/
theorem windows_reader (buffer : List β) (hbuf : buffer.length = bufferSize) {ls : List (Label β)}
    (h : run step (start buffer hbuf) ls = some s) :
    (Meets step SoundCall (start buffer hbuf) ls ↔ Meets step CheckedCall (start buffer hbuf) ls) ∧
      (Meets step CheckedCall (start buffer hbuf) ls →
        Inv s ∧ ∃ t, run linuxStep (start buffer hbuf) (ls.map Label.readv) = some t ∧
          s.results = t.results ∧ s.read = t.read ∧ buffered s.reader = buffered t.reader) := by
  have hw := start_wf buffer hbuf
  refine ⟨?_, fun hok => ?_⟩
  · refine meets_iff_meets (I := fun s => Wf s.reader) (fun s l t _ hok ht => ?_)
      (fun s l t hw ht => ?_) hw h
    · obtain ⟨-, rfl⟩ := step_some ht
      exact hok.wf
    · obtain ⟨⟨hlen, hfits⟩, -⟩ := step_some ht
      exact sound_iff hw hlen hfits
  · have hstart : Inv (start buffer hbuf) := ⟨hw, rfl⟩
    have halike : Alike (start buffer hbuf) (start buffer hbuf) := ⟨hw, hw, rfl, rfl, rfl⟩
    have hi := run_inv_of_meets (fun s l t hi hl ht => step_inv hi hl ht) hstart hok h
    obtain ⟨t, ht, ha⟩ := run_sim (fun s s' l t ha hl hs => step_alike ha hl hs) halike hok h
    exact ⟨hi, t, ht, ha.results, ha.read, ha.buffered⟩

/-- Two bytes are wanted and four are there when the socket is read again; then it is closed. -/
def readAgain : List (Label UInt8) :=
  [⟨2, .reads (.failed .wouldBlock 7) .done (.ok [1, 2, 3, 4])⟩, ⟨5, .pending⟩,
    ⟨5, .reads (.ok []) .done (.ok [])⟩]

theorem windows_reader_readAgain :
    ∃ s, run step (start (List.replicate bufferSize 0) List.length_replicate) readAgain = some s ∧
      s.results.map Prod.fst = [2, 2, 0] ∧
      Meets step SoundCall (start (List.replicate bufferSize 0) List.length_replicate)
        readAgain := by
  have hrun : run step (start (List.replicate bufferSize 0) List.length_replicate) readAgain =
    some _ := rfl
  have hchecked : ∀ l ∈ readAgain, ∀ s : St UInt8, CheckedCall s l := by
    intro l hl s _ _
    simp only [readAgain, List.mem_cons, List.not_mem_nil, or_false] at hl
    rcases hl with rfl | rfl | rfl <;> exact id
  exact ⟨_, hrun, by decide +kernel,
    (windows_reader _ List.length_replicate hrun).1.mpr (meets_of_forall hchecked _)⟩

/-- The socket is reset between the signalling read and the second data read, which leaves the
count of an earlier call: nine bytes seem to have come. -/
theorem unchecked_read :
    ∃ s, run step (start (List.replicate bufferSize 0) List.length_replicate)
        [⟨4, .reads (.failed .wouldBlock 0) .done (.failed (.other 10054) 9)⟩] = some s ∧
      s.results = [(4, [])] ∧ s.reader.fillLevel = 5 ∧
      ¬ Meets step SoundCall
        (start (List.replicate bufferSize (0 : UInt8)) List.length_replicate)
        [⟨4, .reads (.failed .wouldBlock 0) .done (.failed (.other 10054) 9)⟩] := by
  refine ⟨_, rfl, rfl, rfl, fun hmeets => ?_⟩
  have hsound := (hmeets.1.failed _ _ rfl).1
  exact absurd hsound (by decide)

end Hbm.WindowsReader
