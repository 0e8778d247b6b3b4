import Hbm.Complete
import Hbm.WindowsReader

/-!
`receiveComplete` under Windows.

It waits with `select`, and an orderly shutdown gives -1 whatever has been stored. `ssize_t` is
an `int`.
-/

namespace Hbm.WindowsComplete

open Hbm.Size Hbm.Run Hbm.WindowsReader
open Hbm.BufferedReader (Wf ReadV Delivers buffered bufferSize)
open Hbm.WindowsBlock (WsaError)
open Hbm.Complete (Conn Result residual ret_of_delivers eof_of_delivers error_of_delivers)

variable {β : Type*}

inductive Pc
  | recv
  | select
  | returned (retVal : ℤ)
  deriving DecidableEq

/-- The variables of `receiveComplete`; `stored` is what was stored from `pBlock` on. -/
structure Call (β : Type*) where
  len : ℕ
  dataToGet : ℕ
  stored : List β
  pc : Pc

/-- The condition of the loop. -/
def loop (c : Call β) : Call β :=
  { c with pc := if 0 < c.dataToGet then .recv else .returned (toInt c.len) }

def receiveComplete (len : ℕ) : Call β := loop ⟨len, len, [], .recv⟩

/-- One call of `recv`. -/
def received (c : Call β) (x : Recv β) : Call β :=
  let c := { c with stored := c.stored ++ x.stored }
  if 0 < x.ret then loop { c with dataToGet := sub c.dataToGet (toSize x.ret) }
  else if x.ret = 0 then { c with dataToGet := 0, pc := .returned (-1) } -- orderly shutdown
  else if x.lastError = some .ioPending ∨ x.lastError = some .wouldBlock then
    { c with pc := .select }
  else { c with pc := .returned (-1) }

/-- One call of `select`; `e` is the error after it. -/
def selected (c : Call β) (err : ℤ) (e : WsaError) : Call β :=
  if err = -1 ∧ e ≠ .intr then c
  else if err ≠ 1 then { c with pc := .returned (-1) }
  else loop c

/-- How much a data read gave. -/
inductive Count
  | ok (n : ℕ)
  | failed (e : WsaError) (numberOfBytesRecvd : ℕ)

def Count.read (stream : List β) : Count → WsaRecv β
  | .ok n => .ok (stream.take n)
  | .failed e n => .failed e n

/-- The end of the stream comes after its last byte. -/
def Count.possible (total : ℕ) (stream : List β) : Count → Bool
  | .ok n => n ≤ total ∧ n ≤ stream.length ∧ (n = 0 → stream.length = 0)
  | .failed _ n => n < 2 ^ 32

inductive Counts
  | pending
  | reads (first : Count) (signal : Signal) (second : Count)

def Counts.outcome (stream : List β) : Counts → Outcome β
  | .pending => .pending
  | .reads first signal second => .reads (first.read stream) signal (second.read stream)

def Counts.possible (total : ℕ) (stream : List β) : Counts → Bool
  | .pending => true
  | .reads first _ second => first.possible total stream && second.possible total stream

structure St (β : Type*) where
  conn : Conn β
  call : Call β

inductive Label
  | recv (o : Counts)
  | select (err : ℤ) (e : WsaError)

/-- `DataToGet` is cast to an `int`, and this to the `size_t` that `recv` takes. -/
def desiredLen (c : Call β) : ℕ := toSize (toInt c.dataToGet)

def step (s : St β) : Label → Option (St β)
  | .recv o =>
    let x := WindowsReader.recv s.conn.reader (desiredLen s.call) (o.outcome s.conn.stream)
    if s.call.pc = .recv ∧ o.possible (desiredLen s.call + bufferSize) s.conn.stream = true then
      some ⟨⟨x.reader, s.conn.stream.drop (taken x).length⟩, received s.call x⟩
    else none
  | .select err e =>
    if s.call.pc = .select then some ⟨s.conn, selected s.call err e⟩ else none

def start (c : Conn β) (len : ℕ) : St β := ⟨c, receiveComplete len⟩

def complete (c : Conn β) (len : ℕ) (ls : List Label) : Option (Result β) :=
  (run step (start c len) ls).bind fun s =>
    match s.call.pc with
    | .returned v => some ⟨v, s.call.stored, s.conn⟩
    | _ => none

/-- Nothing fails: a data read would block at most, a signalling read is done or pending, and
`select` reports the socket as readable. -/
def Label.Clean : Label → Prop
  | .recv .pending => True
  | .recv (.reads (.ok _) _ _) => True
  | .recv (.reads (.failed .wouldBlock _) .done (.ok _)) => True
  | .recv (.reads (.failed .wouldBlock _) (.failed .ioPending) _) => True
  | .recv _ => False
  | .select err _ => err = 1

/-! ### One step -/

variable {len : ℕ} {all : List β} {s t : St β} {l : Label} {o : Counts} {stream : List β}

lemma desiredLen_eq {c : Call β} (h : c.dataToGet < 2 ^ 31) : desiredLen c = c.dataToGet := by
  rw [desiredLen, toInt_eq h, toSize_natCast (by unfold sizeMod; omega)]

lemma Count.read_fits {k : Count} {total : ℕ} (h : k.possible total stream = true) :
    (k.read stream).Fits total := by
  cases k with
  | ok n =>
    simp only [possible, decide_eq_true_eq] at h
    show (stream.take n).length ≤ total
    rw [List.length_take]
    omega
  | failed e n => exact of_decide_eq_true h

lemma outcome_fits {total : ℕ} (h : o.possible total stream = true) :
    (o.outcome stream).Fits total := by
  cases o with
  | pending => trivial
  | reads first signal second =>
    simp only [Counts.possible, Bool.and_eq_true] at h
    exact ⟨Count.read_fits h.1, Count.read_fits h.2⟩

lemma not_unchecked (h : (Label.recv o).Clean) (stream : List β) :
    ¬ (o.outcome stream).Unchecked := by
  match o, h with
  | .pending, _ => exact id
  | .reads (.ok _) _ _, _ => exact id
  | .reads (.failed .wouldBlock _) .done (.ok _), _ => exact id
  | .reads (.failed .wouldBlock _) (.failed .ioPending) _, _ => exact id

/-- The bytes of the outcome are the next ones of the stream. -/
lemma outcome_bytes (o : Counts) (stream : List β) :
    ∃ n, (o.outcome stream).readv.bytes = stream.take n := by
  have hok : ∀ k : Count, ∃ n, (k.read stream).readv.bytes = stream.take n := by
    intro k
    cases k with
    | ok n => exact ⟨n, WsaRecv.readv_bytes _⟩
    | failed e n => exact ⟨0, rfl⟩
  cases o with
  | pending => exact ⟨0, rfl⟩
  | reads first signal second =>
    cases first with
    | ok n => exact hok (.ok n)
    | failed e n =>
      cases e with
      | wouldBlock =>
        cases signal with
        | done => exact hok second
        | failed e' => exact ⟨0, rfl⟩
      | _ => exact ⟨0, rfl⟩

/-- The end of the stream is reported only where there is nothing left. -/
lemma stream_of_eof {total : ℕ} (h : o.possible total stream = true)
    (heof : (o.outcome stream).readv = .eof) : stream = [] := by
  have hok : ∀ k : Count, k.possible total stream = true → (k.read stream).readv = .eof →
      stream = [] := by
    intro k hk heof
    cases k with
    | failed e n => cases heof
    | ok n =>
      simp only [Count.possible, decide_eq_true_eq] at hk
      have hnil : stream.take n = [] := by
        rw [← WsaRecv.readv_bytes (stream.take n)]
        exact congrArg ReadV.bytes heof
      have hlen := congrArg List.length hnil
      rw [List.length_take, List.length_nil] at hlen
      exact List.eq_nil_of_length_eq_zero (by omega)
  cases o with
  | pending => cases heof
  | reads first signal second =>
    simp only [Counts.possible, Bool.and_eq_true] at h
    cases first with
    | ok n => exact hok _ h.1 heof
    | failed e n =>
      cases e with
      | wouldBlock =>
        cases signal with
        | done => exact hok _ h.2 heof
        | failed e' => cases heof
      | _ => cases heof

/-- A clean call fails only with a read pending. -/
lemma pending_of_clean (h : (Label.recv o).Clean) (herror : (o.outcome stream).readv = .error) :
    o = .pending ∨ ∃ n second, o = .reads (.failed .wouldBlock n) (.failed .ioPending) second := by
  match o, h with
  | .pending, _ => exact Or.inl rfl
  | .reads (.failed .wouldBlock n) (.failed .ioPending) second, _ => exact Or.inr ⟨n, second, rfl⟩
  | .reads (.ok n) _ _, _ =>
    have hno : (WsaRecv.ok (stream.take n)).readv = .error := herror
    cases htake : stream.take n <;> rw [htake] at hno <;> cases hno
  | .reads (.failed .wouldBlock _) .done (.ok n), _ =>
    have hno : (WsaRecv.ok (stream.take n)).readv = .error := herror
    cases htake : stream.take n <;> rw [htake] at hno <;> cases hno

/-- What one clean call of `recv` does. -/
inductive Turn (s t : St β) : Prop
  | more (bytes : List β) (ne : bytes ≠ []) (le : bytes.length ≤ s.call.dataToGet)
      (rest : residual s.conn = bytes ++ residual t.conn)
      (call : t.call = loop { s.call with
        stored := s.call.stored ++ bytes
        dataToGet := s.call.dataToGet - bytes.length })
  | eof (rest : residual t.conn = residual s.conn) (nil : residual t.conn = [])
      (call : t.call = { s.call with dataToGet := 0, pc := .returned (-1) })
  | wait (rest : residual t.conn = residual s.conn)
      (call : t.call = { s.call with pc := .select })

section

variable {c : Call β} {x : Recv β}

lemma received_more (hret : x.ret = x.stored.length) (hne : x.stored ≠ [])
    (hle : x.stored.length ≤ c.dataToGet) (hleft : c.dataToGet < 2 ^ 31) :
    received c x = loop { c with
      stored := c.stored ++ x.stored
      dataToGet := c.dataToGet - x.stored.length } := by
  have hpos := List.length_pos_iff.mpr hne
  unfold received
  simp only [if_pos (show 0 < x.ret by omega)]
  rw [hret, toSize_natCast (by unfold sizeMod; omega), sub_eq (by unfold sizeMod; omega) hle]

lemma received_eof (hret : x.ret = 0) (hst : x.stored = []) :
    received c x = { c with dataToGet := 0, pc := .returned (-1) } := by
  simp [received, hret, hst]

lemma received_pending (hret : x.ret = -1) (hst : x.stored = [])
    (herror : x.lastError = some .ioPending) : received c x = { c with pc := .select } := by
  simp [received, hret, hst, herror]

end

/-- What the reads took and what is left of the stream. -/
lemma residual_recv {c : Conn β} {n : ℕ} {k : ReadV β} {x : Recv β} {y : BufferedReader.Recv β}
    (hm : Matches x y k) (hd : Delivers c.reader n k y) (hk : ∃ m, k.bytes = c.stream.take m) :
    residual c = x.stored ++ residual ⟨x.reader, c.stream.drop (taken x).length⟩ := by
  have htaken : taken x ++ c.stream.drop (taken x).length = c.stream := by
    obtain ⟨m, hm'⟩ := hk
    rw [hm.taken]
    split
    · rw [hm', List.length_take]
      rcases Nat.le_total m c.stream.length with h | h
      · rw [Nat.min_eq_left h, List.take_append_drop]
      · rw [Nat.min_eq_right h, List.drop_length, List.append_nil, List.take_of_length_le h]
    · rfl
  have hstream := hd.stream
  rw [← hm.taken, ← hm.stored, ← hm.buffered] at hstream
  calc residual c = buffered c.reader ++ (taken x ++ c.stream.drop (taken x).length) := by
        rw [htaken]
        rfl
    _ = _ := by
        rw [← List.append_assoc, hstream, List.append_assoc]
        rfl

lemma lastError_of_pending {r : BufferedReader.Reader β} {n : ℕ} (hw : Wf r)
    (hnil : buffered r = []) (hn : 0 < n) (hclean : (Label.recv o).Clean)
    (herror : (o.outcome stream).readv = .error) :
    (recv r n (o.outcome stream)).lastError = some .ioPending := by
  rw [recv_asks hw hnil hn]
  rcases pending_of_clean hclean herror with rfl | ⟨m, second, rfl⟩ <;> rfl

lemma turn_recv (hw : Wf s.conn.reader) (hpos : 0 < s.call.dataToGet)
    (hleft : s.call.dataToGet < 2 ^ 31) (hclean : (Label.recv o).Clean)
    (h : step s (.recv o) = some t) : Wf t.conn.reader ∧ Turn s t := by
  have hlen := desiredLen_eq hleft
  simp only [step, hlen] at h
  split at h
  · rename_i hpc
    cases h
    have hfits := outcome_fits hpc.2
    have hno := not_unchecked hclean s.conn.stream
    have hm := recv_matches hw hleft hfits fun _ _ => hno
    have hd := BufferedReader.recv_delivers hw
      (show s.call.dataToGet ≤ ssizeMax by unfold ssizeMax; omega) (Outcome.readv_fits hfits)
    have hrest := residual_recv hm hd (outcome_bytes o _)
    refine ⟨hm.wf, ?_⟩
    by_cases hgives : (BufferedReader.recv s.conn.reader s.call.dataToGet
        (o.outcome s.conn.stream).readv).called = true →
      (o.outcome s.conn.stream).readv ≠ .eof ∧ (o.outcome s.conn.stream).readv ≠ .error
    · obtain ⟨hret, hne⟩ := ret_of_delivers hd hpos hgives
      have hshort := hd.short
      rw [← hm.ret, ← hm.stored] at hret
      rw [← hm.stored] at hne hshort
      exact .more _ hne hshort hrest (received_more hret hne hshort hleft)
    · obtain ⟨hcalled, hk⟩ := Classical.not_imp.mp hgives
      rw [not_and_or, not_not, not_not] at hk
      rcases hk with heof | herror
      · rw [heof] at hd hm
        obtain ⟨hret, hbuf, hst, hbuf'⟩ := eof_of_delivers hd (heof ▸ hcalled)
        have hnil := stream_of_eof hpc.2 heof
        rw [← hm.ret] at hret
        rw [← hm.stored] at hst
        rw [hst, List.nil_append] at hrest
        refine .eof hrest.symm (hrest.symm.trans ?_) (received_eof hret hst)
        rw [Complete.residual, hbuf, hnil]
        rfl
      · have hnil := (hd.called hcalled).1
        have hlast := lastError_of_pending hw hnil hpos hclean herror
        rw [herror] at hd hm
        obtain ⟨hret, hst⟩ := error_of_delivers hd hpos (herror ▸ hcalled)
        rw [← hm.ret] at hret
        rw [← hm.stored] at hst
        rw [hst, List.nil_append] at hrest
        exact .wait hrest.symm (received_pending hret hst hlast)
  · cases h

/-! ### Whole calls -/

/-- Where a call of `len` bytes stands that found the stream `all`, if nothing has failed. -/
structure Inv (len : ℕ) (all : List β) (s : St β) : Prop where
  wf : Wf s.conn.reader
  len_eq : s.call.len = len
  split : s.call.stored ++ residual s.conn = all
  loop : s.call.pc = .recv ∨ s.call.pc = .select →
    0 < s.call.dataToGet ∧ s.call.stored.length + s.call.dataToGet = len
  returned : ∀ v, s.call.pc = .returned v →
    (s.call.stored.length = len ∧ v = len) ∨ (residual s.conn = [] ∧ v = -1)

lemma loop_inv {c : Conn β} {k : Call β} (hmax : len < 2 ^ 31) (hw : Wf c.reader)
    (hlen : k.len = len) (hsplit : k.stored ++ residual c = all)
    (hleft : k.stored.length + k.dataToGet = len) : Inv len all ⟨c, loop k⟩ := by
  by_cases hpos : 0 < k.dataToGet
  · have hpc : (loop k).pc = .recv := if_pos hpos
    refine ⟨hw, hlen, hsplit, fun _ => ⟨hpos, hleft⟩, fun v hv => ?_⟩
    rw [hpc] at hv
    cases hv
  · have hpc : (loop k).pc = .returned len := by
      rw [loop, if_neg hpos, hlen, toInt_eq hmax]
    refine ⟨hw, hlen, hsplit, fun h => ?_, fun v hv => Or.inl ⟨?_, ?_⟩⟩
    · rw [hpc] at h
      rcases h with h | h <;> cases h
    · show k.stored.length = len
      omega
    · exact (Pc.returned.inj (hpc.symm.trans hv)).symm

lemma start_inv {c : Conn β} (hmax : len < 2 ^ 31) (hw : Wf c.reader) :
    Inv len (residual c) (start c len) :=
  loop_inv hmax hw rfl rfl (Nat.zero_add _)

lemma step_inv (hmax : len < 2 ^ 31) (hi : Inv len all s) (hclean : l.Clean)
    (h : step s l = some t) : Inv len all t := by
  cases l with
  | recv o =>
    have hpc : s.call.pc = .recv := by
      simp only [step] at h
      split at h
      · rename_i hpc
        exact hpc.1
      · cases h
    obtain ⟨hpos, hleft⟩ := hi.loop (Or.inl hpc)
    obtain ⟨hw, hturn⟩ := turn_recv hi.wf hpos (by omega) hclean h
    obtain ⟨c, k⟩ := t
    cases hturn with
    | more bytes _ hle hrest hcall =>
      obtain rfl : k = _ := hcall
      refine loop_inv hmax hw hi.len_eq ?_ ?_
      · show (s.call.stored ++ bytes) ++ residual c = all
        rw [List.append_assoc, ← hrest, hi.split]
      · show (s.call.stored ++ bytes).length + (s.call.dataToGet - bytes.length) = len
        rw [List.length_append]
        omega
    | eof hrest hnil hcall =>
      obtain rfl : k = _ := hcall
      refine ⟨hw, hi.len_eq, by rw [hrest, hi.split], fun hno => ?_, fun v hv => ?_⟩
      · rcases hno with hno | hno <;> cases hno
      · cases hv
        exact Or.inr ⟨hnil, rfl⟩
    | wait hrest hcall =>
      obtain rfl : k = _ := hcall
      exact ⟨hw, hi.len_eq, by rw [hrest, hi.split], fun _ => ⟨hpos, hleft⟩, nofun⟩
  | select err e =>
    simp only [step] at h
    split at h
    · rename_i hpc
      cases h
      obtain rfl : err = 1 := hclean
      have hloop : selected s.call 1 e = loop s.call := by simp [selected]
      rw [hloop]
      exact loop_inv hmax hi.wf hi.len_eq hi.split (hi.loop (Or.inr hpc)).2
    · cases h

/-- **An orderly shutdown** before `len` bytes have come gives -1, with all of them stored. -/
theorem complete_short {c : Conn β} {ls : List Label} {x : Result β} (hmax : len < 2 ^ 31)
    (hw : Wf c.reader) (hshort : (residual c).length < len) (hls : ∀ l ∈ ls, l.Clean)
    (h : complete c len ls = some x) : x.stored = residual c ∧ x.retVal = -1 := by
  obtain ⟨s, hs, hx⟩ := Option.bind_eq_some_iff.mp h
  have hi := run_inv_of_labels (fun _ _ _ hi hl ht => step_inv hmax hi hl ht) (start_inv hmax hw)
    hls hs
  split at hx
  · rename_i v hpc
    cases hx
    have hsplit := hi.split
    rcases hi.returned v hpc with ⟨hall, -⟩ | ⟨hnil, hv⟩
    · have hlen := congrArg List.length hsplit
      rw [List.length_append] at hlen
      omega
    · rw [hnil, List.append_nil] at hsplit
      exact ⟨hsplit, hv⟩
  · cases hx

end Hbm.WindowsComplete
