import Hbm.Receive
import Hbm.Run

/-!
One socket object, connected several times.

The read-ahead belongs to the socket object and not to the connection: neither `disconnect` nor
`connect` empties it. So what was read ahead on one connection is delivered on the next one,
exactly when something is buffered where a connection succeeds.
-/

namespace Hbm.Connections

open Hbm.Size Hbm.BufferedReader Hbm.Syscall Hbm.Receive Hbm.Run

/-- A byte and the connection it was sent on. -/
structure Octet where
  origin : ℕ
  value : UInt8
  deriving DecidableEq

/-- How `connect` goes: where it fails, or, after EINPROGRESS, what `waitForWritable` returned
and what SO_ERROR was. -/
inductive Outcome
  | noAddress
  | noSocket
  | noOptions
  | refused
  | established
  | inProgress (err value : ℤ)

def Outcome.ret : Outcome → ℤ
  | .established => 0
  | .inProgress err value => if err ≠ 1 then -1 else if value ≠ 0 then -1 else 0
  | _ => -1

/-- `event` is the connection that `m_event` stands for, none when this is -1; `sockets` counts
the calls of `socket`. The other two fields are records: `peer` is the connection made by the
last `connect`, and `delivered` has every byte stored for the caller, each with the `peer` at
that time. -/
structure St where
  reader : Reader Octet
  event : Option ℕ
  call : Option (Call Octet)
  sockets : ℕ
  peer : Option ℕ
  delivered : List (Option ℕ × Octet)

inductive Label
  | connect (o : Outcome)
  | receive (size : ℕ) (k : ReadV UInt8)
  | receiveComplete (size : ℕ)
  | recv (k : ReadV UInt8) (e : Errno)
  | poll (p : Poll)
  | disconnect

def connect (s : St) (o : Outcome) : St :=
  match o with
  | .noAddress => s
  | .noSocket => { s with event := none, peer := none }
  | o => { s with
    event := some s.sockets
    sockets := s.sockets + 1
    peer := if o.ret = 0 then some s.sockets else none }

def disconnect (s : St) : St := { s with event := none }

/-- What is read comes from the connection the descriptor stands for; without a descriptor
`readv` fails. -/
def readv (event : Option ℕ) (total : ℕ) : ReadV UInt8 → Option (ReadV Octet)
  | .data bytes =>
    if bytes ≠ [] ∧ bytes.length ≤ total then
      event.map fun c => .data (bytes.map fun b => ⟨c, b⟩)
    else none
  | .eof => event.map fun _ => .eof
  | .error => some .error

/-- The bytes are stored for the caller. -/
def deliver (s : St) (x : Recv Octet) : St :=
  { s with
    reader := x.reader
    delivered := s.delivered ++ x.stored.map fun b => (s.peer, b) }

/-- No call is running. -/
def idle (s : St) : Bool :=
  match s.call with
  | none => true
  | some c => match c.pc with
    | .returned _ => true
    | _ => false

/-- The caller's area has `size` bytes, so `size` is at most SSIZE_MAX. -/
def step (s : St) : Label → Option St
  | .connect o => if idle s then some (connect s o) else none
  | .disconnect => if idle s then some (disconnect s) else none
  | .receive size k =>
    if idle s ∧ size ≤ ssizeMax then
      (readv s.event (size + bufferSize) k).map fun k => deliver s (receive s.reader size k)
    else none
  | .receiveComplete size =>
    if idle s ∧ size ≤ ssizeMax then some { s with call := some (receiveComplete size) } else none
  | .recv k e =>
    match s.call with
    | none => none
    | some c =>
      if c.pc = .recv then
        (readv s.event (c.sizeLeft + bufferSize) k).map fun k =>
          let x := recv s.reader c.sizeLeft k
          { deliver s x with call := some (received c x e) }
      else none
  | .poll p =>
    match s.call with
    | none => none
    | some c => if c.pc = .poll then some { s with call := some (polled c p) } else none

/-- A new socket object, with or without a connection that was accepted. -/
def start (buffer : List Octet) (h : buffer.length = bufferSize) (accepted : Bool) : St where
  reader := ⟨buffer, 0, 0, h⟩
  event := if accepted then some 0 else none
  call := none
  sockets := if accepted then 1 else 0
  peer := if accepted then some 0 else none
  delivered := []

/-- Every byte delivered on a connection was sent on it. -/
def Own (delivered : List (Option ℕ × Octet)) : Prop :=
  ∀ p b, (some p, b) ∈ delivered → b.origin = p

/-- Nothing is buffered where a connection succeeds. -/
def Fresh (s : St) : Label → Prop
  | .connect o => o.ret = 0 → buffered s.reader = []
  | _ => True

/-- What holds in every run. -/
structure Inv (s : St) : Prop where
  wf : Wf s.reader
  sizeLeft : ∀ c, s.call = some c → c.sizeLeft ≤ ssizeMax
  event : ∀ c, s.event = some c → c < s.sockets
  buffered : ∀ b ∈ buffered s.reader, b.origin < s.sockets

/-- Only the current connection is in the buffer. -/
structure Pure (s : St) : Prop where
  event : ∀ p c, s.peer = some p → s.event = some c → c = p
  buffered : ∀ p, s.peer = some p → ∀ b ∈ buffered s.reader, b.origin = p
  delivered : Own s.delivered

variable {s t : St}

lemma buffered_start (buffer : List Octet) (h : buffer.length = bufferSize) (accepted : Bool) :
    buffered (start buffer h accepted).reader = [] := rfl

lemma start_inv (buffer : List Octet) (h : buffer.length = bufferSize) (accepted : Bool) :
    Inv (start buffer h accepted) := by
  refine ⟨⟨Nat.le_refl _, Nat.zero_le _⟩, nofun, fun c hc => ?_, fun b hb => ?_⟩
  · cases accepted <;> cases hc
    exact Nat.one_pos
  · rw [buffered_start] at hb
    cases hb

lemma start_pure (buffer : List Octet) (h : buffer.length = bufferSize) (accepted : Bool) :
    Pure (start buffer h accepted) := by
  refine ⟨fun p c hp hc => ?_, fun p _ b hb => ?_, nofun⟩
  · exact Option.some.inj (hc.symm.trans hp)
  · rw [buffered_start] at hb
    cases hb

/-- What is read is from the connection of the descriptor. -/
lemma readv_some {event : Option ℕ} {total : ℕ} {k : ReadV UInt8} {k' : ReadV Octet}
    (h : readv event total k = some k') :
    k'.Fits total ∧ ∀ b ∈ k'.bytes, event = some b.origin := by
  cases k with
  | data bytes =>
    simp only [readv] at h
    split at h
    · rename_i hfits
      obtain ⟨c, rfl, rfl⟩ := Option.map_eq_some_iff.mp h
      refine ⟨⟨by simpa using hfits.1, by simpa using hfits.2⟩, fun b hb => ?_⟩
      obtain ⟨v, -, rfl⟩ := List.mem_map.mp hb
      rfl
    · cases h
  | eof =>
    obtain ⟨c, rfl, rfl⟩ := Option.map_eq_some_iff.mp h
    exact ⟨trivial, nofun⟩
  | error =>
    cases h
    exact ⟨trivial, nofun⟩

section

variable {size : ℕ} {k : ReadV Octet} {x : Recv Octet}

/-- What is stored or buffered was buffered before or has been read. -/
lemma mem_of_delivers {r : Reader Octet} (h : Delivers r size k x) {b : Octet}
    (hb : b ∈ x.stored ++ buffered x.reader) : b ∈ buffered r ∨ b ∈ k.bytes := by
  rw [← h.stream] at hb
  rcases List.mem_append.mp hb with hb | hb
  · exact Or.inl hb
  · split at hb
    · exact Or.inr hb
    · cases hb

lemma deliver_inv (hi : Inv s) (h : Delivers s.reader size k x)
    (hk : ∀ b ∈ k.bytes, s.event = some b.origin) : Inv (deliver s x) := by
  refine ⟨h.wf, hi.sizeLeft, hi.event, fun b hb => ?_⟩
  rcases mem_of_delivers h (List.mem_append_right _ hb) with hb | hb
  · exact hi.buffered b hb
  · exact hi.event _ (hk b hb)

lemma deliver_pure (hp : Pure s) (h : Delivers s.reader size k x)
    (hk : ∀ b ∈ k.bytes, s.event = some b.origin) : Pure (deliver s x) := by
  have hown : ∀ p, s.peer = some p → ∀ b ∈ x.stored ++ buffered x.reader, b.origin = p := by
    intro p hpeer b hb
    rcases mem_of_delivers h hb with hb | hb
    · exact hp.buffered p hpeer b hb
    · exact hp.event p _ hpeer (hk b hb)
  refine ⟨hp.event, fun p hpeer b hb => hown p hpeer b (List.mem_append_right _ hb), ?_⟩
  intro p b hb
  rcases List.mem_append.mp hb with hb | hb
  · exact hp.delivered p b hb
  · obtain ⟨b', hb', heq⟩ := List.mem_map.mp hb
    obtain ⟨hpeer, rfl⟩ := Prod.mk.inj heq
    exact hown p hpeer b' (List.mem_append_left _ hb')

end

lemma connect_inv (hi : Inv s) (o : Outcome) : Inv (connect s o) := by
  cases o with
  | noAddress => exact hi
  | noSocket => exact ⟨hi.wf, hi.sizeLeft, nofun, hi.buffered⟩
  | _ =>
    refine ⟨hi.wf, hi.sizeLeft, fun c hc => ?_, fun b hb => ?_⟩
    · cases hc
      exact Nat.lt_succ_self _
    · exact Nat.lt_succ_of_lt (hi.buffered b hb)

/-- A `connect` that made a socket. -/
lemma connect_peer {o : Outcome} (h : o.ret = 0) :
    connect s o =
      { s with event := some s.sockets, sockets := s.sockets + 1, peer := some s.sockets } := by
  cases o with
  | established => rfl
  | inProgress err value =>
    unfold connect
    simp only [if_pos h]
  | _ => cases h

lemma connect_fails {o : Outcome} (h : o.ret ≠ 0) :
    connect s o = s ∨ (connect s o).peer = none := by
  cases o with
  | noAddress => exact Or.inl rfl
  | established => exact absurd rfl h
  | inProgress err value => exact Or.inr (if_neg h)
  | _ => exact Or.inr rfl

lemma connect_delivered (o : Outcome) : (connect s o).delivered = s.delivered := by
  cases o <;> rfl

lemma connect_pure (hp : Pure s) {o : Outcome} (ho : o.ret = 0 → buffered s.reader = []) :
    Pure (connect s o) := by
  by_cases hret : o.ret = 0
  · rw [connect_peer hret]
    refine ⟨fun p c hpeer hc => ?_, fun p _ b hb => ?_, hp.delivered⟩
    · exact Option.some.inj (hc.symm.trans hpeer)
    · rw [show buffered s.reader = [] from ho hret] at hb
      cases hb
  · rcases connect_fails (s := s) hret with heq | hnone
    · rwa [heq]
    · refine ⟨fun p c hpeer => ?_, fun p hpeer => ?_, ?_⟩
      · rw [hnone] at hpeer
        cases hpeer
      · rw [hnone] at hpeer
        cases hpeer
      · rw [connect_delivered]
        exact hp.delivered

/-- Receiving on a socket, called directly or from `receiveComplete`. -/
lemma recv_inv (hi : Inv s) {size : ℕ} {k : ReadV UInt8} {k' : ReadV Octet}
    (hsize : size ≤ ssizeMax) (hk : readv s.event (size + bufferSize) k = some k') :
    Delivers s.reader size k' (recv s.reader size k') ∧
      Inv (deliver s (recv s.reader size k')) ∧
      (Pure s → Pure (deliver s (recv s.reader size k'))) := by
  obtain ⟨hfits, hfrom⟩ := readv_some hk
  have hd := recv_delivers hi.wf hsize hfits
  exact ⟨hd, deliver_inv hi hd hfrom, fun hp => deliver_pure hp hd hfrom⟩

lemma step_inv {l : Label} (hi : Inv s) (h : step s l = some t) :
    Inv t ∧ (Pure s → Fresh s l → Pure t) := by
  cases l with
  | connect o =>
    simp only [step] at h
    split at h
    · cases h
      exact ⟨connect_inv hi o, fun hp ho => connect_pure hp ho⟩
    · cases h
  | disconnect =>
    simp only [step] at h
    split at h
    · cases h
      exact ⟨⟨hi.wf, hi.sizeLeft, nofun, hi.buffered⟩,
        fun hp _ => ⟨nofun, hp.buffered, hp.delivered⟩⟩
    · cases h
  | receive size k =>
    simp only [step] at h
    split at h
    · rename_i hidle
      obtain ⟨k', hk, rfl⟩ := Option.map_eq_some_iff.mp h
      obtain ⟨-, hinv, hpure⟩ := recv_inv hi hidle.2 hk
      exact ⟨hinv, fun hp _ => hpure hp⟩
    · cases h
  | receiveComplete size =>
    simp only [step] at h
    split at h
    · rename_i hidle
      cases h
      refine ⟨⟨hi.wf, fun c hc => ?_, hi.event, hi.buffered⟩,
        fun hp _ => ⟨hp.event, hp.buffered, hp.delivered⟩⟩
      cases hc
      exact hidle.2
    · cases h
  | recv k e =>
    simp only [step] at h
    split at h
    · cases h
    · rename_i c hc
      split at h
      · obtain ⟨k', hk, rfl⟩ := Option.map_eq_some_iff.mp h
        obtain ⟨hd, hinv, hpure⟩ := recv_inv hi (hi.sizeLeft c hc) hk
        refine ⟨⟨hinv.wf, fun c' hc' => ?_, hinv.event, hinv.buffered⟩,
          fun hp _ => ⟨(hpure hp).event, (hpure hp).buffered, (hpure hp).delivered⟩⟩
        cases hc'
        have hmax := ssizeMax_lt
        have hleft := hi.sizeLeft c hc
        exact Nat.le_trans (received_sizeLeft (by omega) hd.ret_le) hleft
      · cases h
  | poll p =>
    simp only [step] at h
    split at h
    · cases h
    · rename_i c hc
      split at h
      · cases h
        refine ⟨⟨hi.wf, fun c' hc' => ?_, hi.event, hi.buffered⟩,
          fun hp _ => ⟨hp.event, hp.buffered, hp.delivered⟩⟩
        cases hc'
        rw [polled_sizeLeft]
        exact hi.sizeLeft c hc
      · cases h

/-- With something buffered where a connection succeeds, the next byte is from an earlier one. -/
lemma receive_crosses (hi : Inv s) (hidle : idle s = true) {o : Outcome} (ho : o.ret = 0)
    (hbuf : buffered s.reader ≠ []) :
    ∃ t, run step s [.connect o, .receive 1 .error] = some t ∧ ¬ Own t.delivered := by
  obtain ⟨b, rest, hb⟩ := List.exists_cons_of_ne_nil hbuf
  have hlen := buffered_length hi.wf
  rw [hb, List.length_cons] at hlen
  have hrecv := recv_ready (k := ReadV.error) hi.wf (show 1 ≤ ssizeMax by decide) (by omega)
  have hconnect : step s (.connect o) = some (connect s o) := by
    simp only [step, hidle, if_true]
  have hreceive : step (connect s o) (.receive 1 .error) =
      some (deliver (connect s o) (recv s.reader 1 .error)) := by
    have hidle' : idle (connect s o) = true := by
      rw [connect_peer ho]
      exact hidle
    have hsize : 1 ≤ ssizeMax := by decide
    simp only [step, hidle', hsize, and_self, if_true]
    rw [connect_peer ho]
    rfl
  refine ⟨_, run_cons_some.mpr ⟨_, hconnect, run_cons_some.mpr ⟨_, hreceive, rfl⟩⟩, fun hown => ?_⟩
  have hmem : (some s.sockets, b) ∈ (deliver (connect s o) (recv s.reader 1 .error)).delivered := by
    rw [connect_peer ho, hrecv, hb]
    exact List.mem_append_right _ (List.mem_singleton.mpr rfl)
  have horigin := hown _ _ hmem
  have hlt := hi.buffered b (by rw [hb]; exact List.mem_cons_self)
  omega

/-- **No bytes cross connections** in a run in which nothing is buffered where a connection
succeeds. Where something is, the next byte received crosses. -/
theorem own_bytes (buffer : List Octet) (hbuf : buffer.length = bufferSize) (accepted : Bool)
    {ls : List Label} (h : run step (start buffer hbuf accepted) ls = some t) :
    (Meets step Fresh (start buffer hbuf accepted) ls → Own t.delivered) ∧
      ∀ o : Outcome, idle t = true → o.ret = 0 → buffered t.reader ≠ [] →
        ∃ u, run step t [.connect o, .receive 1 .error] = some u ∧ ¬ Own u.delivered := by
  refine ⟨fun hfresh => ?_, fun o hidle ho hne => ?_⟩
  · have hstep : ∀ s l t, Inv s ∧ Pure s → Fresh s l → step s l = some t → Inv t ∧ Pure t :=
      fun s l t hi hl ht => ⟨(step_inv hi.1 ht).1, (step_inv hi.1 ht).2 hi.2 hl⟩
    have hstart := And.intro (start_inv buffer hbuf accepted) (start_pure buffer hbuf accepted)
    exact (run_inv_of_meets hstep hstart hfresh h).2.delivered
  · have hi : Inv t := run_inv (fun s l t hi ht => (step_inv hi ht).1)
      (start_inv buffer hbuf accepted) h
    exact receive_crosses hi hidle ho hne

/-- Two connections, everything received before the second one. -/
def reconnects : List Label :=
  [.connect .established, .receive 2 (.data [7, 8]), .disconnect, .connect (.inProgress 1 0),
    .receiveComplete 2, .recv (.data [9]) .other, .recv .error .again, .poll .ready,
    .recv (.data [10, 11]) .other]

theorem own_bytes_reconnects :
    ∃ s, run step (start (List.replicate bufferSize ⟨0, 0⟩) List.length_replicate false)
        reconnects = some s ∧ Own s.delivered := by
  have hrun : run step (start (List.replicate bufferSize ⟨0, 0⟩) List.length_replicate false)
    reconnects = some _ := rfl
  have hfresh : Meets step Fresh
      (start (List.replicate bufferSize ⟨0, 0⟩) List.length_replicate false) reconnects := by
    refine meets_step (fun _ => rfl) rfl (meets_step trivial rfl (meets_step trivial rfl ?_))
    exact meets_step (fun _ => rfl) rfl (meets_of_forall (by simp [Fresh]) _)
  exact ⟨_, hrun, (own_bytes _ List.length_replicate false hrun).1 hfresh⟩

/-- One byte of two is read on the first connection, and the other one on the second. -/
theorem readAhead_crosses :
    ∃ s, run step (start (List.replicate bufferSize ⟨0, 0⟩) List.length_replicate false)
        [.connect .established, .receive 1 (.data [7, 8]), .disconnect, .connect .established,
          .receive 1 .error] = some s ∧ ¬ Own s.delivered := by
  have hfit : [(⟨0, 8⟩ : Octet)].take bufferSize = [⟨0, 8⟩] := List.take_of_length_le (by decide)
  refine ⟨_, rfl, fun hown => ?_⟩
  have hmem := hown 1 ⟨0, 8⟩ (by
    simp [deliver, connect, disconnect, receive, recv, start, sub, add, toSsize, toSize, sizeMod,
      ssizeMax, overwrite, ReadV.ret, ReadV.bytes, Outcome.ret, hfit])
  cases hmem

end Hbm.Connections
