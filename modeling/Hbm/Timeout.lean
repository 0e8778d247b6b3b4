import Hbm.Complete

/-!
A call of `receiveComplete` that fails while the connection stays open.

What was stored before the failure has left the buffer and the kernel, and -1 does not say how
much it was. The next call starts behind it, so it gets other bytes unless there were none.
-/

namespace Hbm.Timeout

open Hbm.Size Hbm.BufferedReader Hbm.Syscall Hbm.Run Hbm.Complete
open Hbm.Stream (Answer)

variable {β : Type*}

/-- A call on `d` gives the bytes that it gives on `c`. -/
def SameBytes (c d : Conn β) (size : ℕ) : Prop :=
  ∀ ls ms y z, (∀ l ∈ ls, l.Clean) → (∀ l ∈ ms, l.Clean) → complete c size ls = some y →
    complete d size ms = some z → z.retVal = y.retVal ∧ z.stored = y.stored

/-- There was nothing to store: the buffer was empty, and `readv` gave no bytes. -/
def Untouched (c : Conn β) (ls : List Label) : Prop :=
  buffered c.reader = [] ∧ ∀ n e, Label.read (.data n) e ∉ ls

variable {c : Conn β} {size : ℕ} {all : List β} {ls : List Label} {x : Result β} {s t : St β}
  {l : Label}

/-- `recv` calls `readv` exactly when nothing is buffered. -/
lemma called_iff {r : Reader β} {n : ℕ} (k : ReadV β) (hw : Wf r) (hmax : n ≤ ssizeMax)
    (hn : 0 < n) : (recv r n k).called = true ↔ buffered r = [] := by
  have hd := recv_delivers (k := .error) hw hmax trivial
  rw [recv_called r n k .error]
  refine ⟨fun h => (hd.called h).1, fun hnil => ?_⟩
  by_contra hno
  rw [Bool.not_eq_true] at hno
  have hne := (ret_of_delivers hd hn fun h => by rw [hno] at h; cases h).2
  have hstream := hd.stream
  rw [hno, if_neg Bool.false_ne_true, List.append_nil, hnil] at hstream
  exact hne (List.append_eq_nil_iff.mp hstream.symm).1

lemma step_quiet (hmax : size ≤ ssizeMax) (hi : Inv size all s) (hl : l.moves = false)
    (h : step s l = some t) : t.call.stored = s.call.stored := by
  have hleft := hi.left
  have hpos := hi.loop (pc_of_step h)
  obtain ⟨-, hturn⟩ := turn_of_step hi.wf (by omega) (fun _ => hpos) h
  cases hturn with
  | more _ hmoves =>
    rw [hl] at hmoves
    cases hmoves
  | poll _ hcall => rw [hcall, polled_stored]
  | eof _ _ hcall | wait _ hcall | failed _ _ hcall => rw [hcall]

/-- With nothing buffered, a step that reads no bytes stores none and buffers none. -/
lemma step_untouched (hmax : size ≤ ssizeMax) (hi : Inv size all s)
    (hbuf : buffered s.conn.reader = []) (hl : ∀ n e, l ≠ .read (.data n) e)
    (h : step s l = some t) : l.moves = false ∧ buffered t.conn.reader = [] := by
  have hleft := hi.left
  have hpos := hi.loop (pc_of_step h)
  have hcalled := fun k => (called_iff k hi.wf (by omega) hpos).mpr hbuf
  cases l with
  | served =>
    simp only [step] at h
    split at h
    · rename_i hpc
      rw [hcalled] at hpc
      cases hpc.2
    · cases h
  | read k e =>
    simp only [step] at h
    split at h
    · rename_i hpc
      cases h
      have hd := recv_delivers hi.wf (show s.call.sizeLeft ≤ ssizeMax by omega)
        (possible_fits hpc.2.2)
      cases k with
      | data n => exact absurd rfl (hl n e)
      | eof => exact ⟨rfl, (nothing_of_delivers hd (hcalled _) rfl).2.2⟩
      | error => exact ⟨rfl, (nothing_of_delivers hd (hcalled _) rfl).2.2⟩
    · cases h
  | poll p =>
    simp only [step] at h
    split at h
    · cases h
      exact ⟨rfl, hbuf⟩
    · cases h

lemma stored_eq_nil (hmax : size ≤ ssizeMax) (hw : Wf c.reader)
    (h : run step (start c size) ls = some s) :
    s.call.stored = [] ↔ ∀ l ∈ ls, l.moves = false := by
  constructor
  · intro hnil l hl
    have hcount := moves_le hmax hw h
    rw [hnil, List.length_nil, Nat.le_zero, List.countP_eq_zero] at hcount
    simpa using hcount l hl
  · intro hls
    induction ls using List.reverseRecOn generalizing s with
    | nil =>
      cases h
      rfl
    | append_singleton ls l ih =>
      obtain ⟨u, hu, hl⟩ := run_snoc_some.mp h
      rw [step_quiet hmax (inv_of_run hmax hw hu) (hls l (by simp)) hl]
      exact ih hu fun m hm => hls m (by simp [hm])

/-- The first answer decides whether something was buffered. -/
lemma untouched_of_quiet (hmax : size ≤ ssizeMax) (hw : Wf c.reader) (hpos : 0 < size)
    (h : run step (start c size) ls = some s) (hne : ls ≠ []) (hls : ∀ l ∈ ls, l.moves = false) :
    Untouched c ls := by
  refine ⟨?_, fun n e hmem => by cases hls _ hmem⟩
  obtain ⟨l, rest, rfl⟩ := List.exists_cons_of_ne_nil hne
  obtain ⟨t, ht, -⟩ := run_cons_some.mp h
  have hpc : (start c size).call.pc = .recv := by
    simp [start, Receive.receiveComplete, Receive.loop, Nat.pos_iff_ne_zero.mp hpos]
  cases l with
  | served => cases hls _ List.mem_cons_self
  | read k e =>
    simp only [step] at ht
    split at ht
    · rename_i hread
      exact (called_iff _ hw hmax hpos).mp hread.2.1
    · cases ht
  | poll p =>
    simp only [step, hpc] at ht
    cases ht

lemma quiet_of_untouched (hmax : size ≤ ssizeMax) (hw : Wf c.reader) (hc : Untouched c ls)
    (h : run step (start c size) ls = some s) :
    (∀ l ∈ ls, l.moves = false) ∧ buffered s.conn.reader = [] := by
  induction ls using List.reverseRecOn generalizing s with
  | nil =>
    cases h
    exact ⟨nofun, hc.1⟩
  | append_singleton ls l ih =>
    obtain ⟨u, hu, hl⟩ := run_snoc_some.mp h
    obtain ⟨hls, hbuf⟩ := ih ⟨hc.1, fun n e hmem => hc.2 n e (by simp [hmem])⟩ hu
    obtain ⟨hmoves, hbuf'⟩ := step_untouched hmax (inv_of_run hmax hw hu) hbuf
      (fun n e heq => hc.2 n e (by simp [heq])) hl
    refine ⟨fun m hm => ?_, hbuf'⟩
    rcases List.mem_append.mp hm with hm | hm
    · exact hls m hm
    · rwa [List.mem_singleton.mp hm]

lemma start_pc (hpos : 0 < size) : (start c size).call.pc = .recv := by
  simp [start, Receive.receiveComplete, Receive.loop, Nat.pos_iff_ne_zero.mp hpos]

/-- An empty request succeeds at once, and no other one returns at once. -/
lemma asked_of_failed (h : run step (start c size) ls = some s) (hpc : s.call.pc = .returned (-1)) :
    0 < size ∧ ls ≠ [] := by
  rcases Nat.eq_zero_or_pos size with rfl | hpos
  · have hstart : (start c 0).call.pc = .returned 0 := rfl
    cases ls with
    | nil =>
      cases h
      cases hpc
    | cons l ls =>
      obtain ⟨t, ht, -⟩ := run_cons_some.mp h
      have hno := pc_of_step ht
      rw [hstart] at hno
      rcases hno with hno | hno <;> cases hno
  · refine ⟨hpos, ?_⟩
    rintro rfl
    cases h
    rw [start_pc hpos] at hpc
    cases hpc

/-- A call that fails has stored nothing exactly when there was nothing to store. -/
lemma stored_nil_iff_untouched (hmax : size ≤ ssizeMax) (hw : Wf c.reader)
    (h : complete c size ls = some x) (hret : x.retVal = -1) :
    x.stored = [] ↔ Untouched c ls := by
  obtain ⟨s, hs, hpc, hst, -⟩ := complete_some.mp h
  rw [hret] at hpc
  obtain ⟨hpos, hne⟩ := asked_of_failed hs hpc
  rw [← hst, stored_eq_nil hmax hw hs]
  exact ⟨untouched_of_quiet hmax hw hpos hs hne, fun hc => (quiet_of_untouched hmax hw hc hs).1⟩

/-- What the failed call stored is missing from the stream. -/
lemma split_of_complete (hmax : size ≤ ssizeMax) (hw : Wf c.reader)
    (h : complete c size ls = some x) :
    Wf x.conn.reader ∧ x.stored ++ residual x.conn = residual c := by
  obtain ⟨s, hs, -, hst, hconn⟩ := complete_some.mp h
  have hi := inv_of_run hmax hw hs
  rw [← hst, ← hconn]
  exact ⟨hi.wf, hi.split⟩

lemma sameBytes_of_residual {d : Conn β} (hmax : size ≤ ssizeMax) (hc : Wf c.reader)
    (hd : Wf d.reader) (h : residual d = residual c) : SameBytes c d size := by
  intro ls ms y z hls hms hy hz
  obtain ⟨-, hst, -, hret⟩ := complete_eq hmax hc hls hy
  obtain ⟨-, hst', -, hret'⟩ := complete_eq hmax hd hms hz
  rw [hst, hret, hst', hret', h]
  exact ⟨rfl, rfl⟩

/-- There is always some call that returns, and what it stores is the first part of the stream. -/
lemma exists_complete (hmax : size ≤ ssizeMax) (hw : Wf c.reader) :
    ∃ ls y, (∀ l ∈ ls, l.Clean) ∧ complete c size ls = some y ∧
      y.stored = (residual c).take size := by
  obtain ⟨ms, t, v, hms, ht, hv⟩ := can_return hmax (start_inv hmax hw).1
  have hy : complete c size ms = some ⟨v, t.call.stored, t.conn⟩ :=
    complete_some.mpr ⟨t, ht, hv, rfl, rfl⟩
  exact ⟨ms, _, hms, hy, (complete_eq hmax hw hms hy).2.1⟩

/-- A rest of a stream does not start as the stream does when its bytes are told apart. -/
lemma take_ne_of_nodup {bytes rest : List β} {n : ℕ} (hn : 0 < n) (hne : bytes ≠ [])
    (hdup : (bytes ++ rest).Nodup) : rest.take n ≠ (bytes ++ rest).take n := by
  obtain ⟨b, bs, rfl⟩ := List.exists_cons_of_ne_nil hne
  intro heq
  obtain ⟨m, rfl⟩ := Nat.exists_eq_succ_of_ne_zero (Nat.pos_iff_ne_zero.mp hn)
  have hmem : b ∈ rest.take (m + 1) := by
    rw [heq]
    exact List.mem_cons_self
  rw [List.cons_append, List.nodup_cons] at hdup
  exact hdup.1 (List.mem_append_right _ (List.mem_of_mem_take hmem))

/-- **A failed call** leaves the stream as it was exactly when nothing was buffered and `readv`
gave no bytes before. Then any following call gives what it would have given without the failed
one. Otherwise the following call of the same size gives other bytes of the stream: those are
told apart by their place, so that no byte is in the stream twice. -/
theorem failed_receiveComplete (hmax : size ≤ ssizeMax) (hw : Wf c.reader)
    (h : complete c size ls = some x) (hret : x.retVal = -1) :
    (residual x.conn = residual c ↔ Untouched c ls) ∧
      (Untouched c ls → ∀ n ≤ ssizeMax, SameBytes c x.conn n) ∧
      ((residual c).Nodup → (SameBytes c x.conn size ↔ Untouched c ls)) := by
  obtain ⟨hwf, hsplit⟩ := split_of_complete hmax hw h
  have hiff : residual x.conn = residual c ↔ Untouched c ls := by
    rw [← stored_nil_iff_untouched hmax hw h hret, ← hsplit]
    refine ⟨fun heq => ?_, fun hnil => by rw [hnil, List.nil_append]⟩
    have hlen := congrArg List.length heq
    rw [List.length_append] at hlen
    exact List.eq_nil_of_length_eq_zero (by omega)
  have hsame : Untouched c ls → ∀ n ≤ ssizeMax, SameBytes c x.conn n :=
    fun hc n hn => sameBytes_of_residual hn hw hwf (hiff.mpr hc)
  refine ⟨hiff, hsame, fun hdup => ⟨fun hbytes => ?_, fun hc => hsame hc size hmax⟩⟩
  by_contra hno
  rw [← stored_nil_iff_untouched hmax hw h hret] at hno
  obtain ⟨s, hs, hpc, -⟩ := complete_some.mp h
  rw [hret] at hpc
  obtain ⟨ls', y, hls', hy, hst⟩ := exists_complete hmax hw
  obtain ⟨ms', z, hms', hz, hst'⟩ := exists_complete hmax hwf
  have heq := (hbytes ls' ms' y z hls' hms' hy hz).2
  rw [hst, hst', ← hsplit] at heq
  rw [← hsplit] at hdup
  exact take_ne_of_nodup (asked_of_failed hs hpc).1 hno hdup heq

/-- Four bytes to come, none of them buffered. -/
def fresh : Conn UInt8 := ⟨⟨List.replicate bufferSize 0, 0, 0, List.length_replicate⟩, [1, 2, 3, 4]⟩

/-- The call times out before the first byte. -/
theorem failed_receiveComplete_quiet :
    ∃ x, complete fresh 2 [.read .error .again, .poll .timeout] = some x ∧
      SameBytes fresh x.conn 2 := by
  have h : complete fresh 2 [.read .error .again, .poll .timeout] = some _ := rfl
  have hdup : (residual fresh).Nodup := by
    rw [show residual fresh = [1, 2, 3, 4] from rfl]
    decide
  exact ⟨_, h, ((failed_receiveComplete (by decide) ⟨Nat.le_refl _, Nat.zero_le _⟩ h rfl).2.2
    hdup).mpr ⟨rfl, by simp⟩⟩

/-- The call times out behind the first byte, and the following one gives the second and the
third. -/
theorem timeout_loses_byte :
    ∃ x, complete fresh 2 [.read (.data 1) .other, .read .error .again, .poll .timeout] = some x ∧
      x.retVal = -1 ∧ ¬ SameBytes fresh x.conn 2 := by
  refine ⟨_, rfl, rfl, fun hsame => ?_⟩
  have h := hsame [.read (.data 2) .other] [.read (.data 2) .other] _ _ (by decide) (by decide) rfl
    rfl
  exact absurd (h.2 : [(2 : UInt8), 3] = [1, 2]) (by decide)

end Hbm.Timeout
