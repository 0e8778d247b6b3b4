import Hbm.BufferedReader
import Hbm.Run

/-!
One connection: the peer sends, the kernel holds the bytes, and `recv` hands them on.

The kernel answers every call with some number of the bytes it holds, with the end of the
stream, or with an error; the answer counts only if `readv` is called. The invariant places
every byte the peer sent: delivered, or buffered, or still held by the kernel, in this order.
-/

namespace Hbm.Stream

open Hbm.Size Hbm.BufferedReader Hbm.Run

variable {β : Type*}

/-- `held` is what the kernel holds; `sent` and `delivered` record what the peer sent and what
was stored for the caller. -/
structure Conn (β : Type*) where
  reader : Reader β
  held : List β
  sent : List β
  delivered : List β

/-- What the kernel answers to a call of `readv`. -/
inductive Answer
  | data (n : ℕ)
  | eof
  | error

inductive Label (β : Type*)
  | send (bytes : List β)
  | recv (desiredLen : ℕ) (k : Answer)

namespace Answer

/-- A number of bytes is at least one, and no more than there are and than both areas take. -/
def possible (total : ℕ) (held : List β) : Answer → Bool
  | .data n => 0 < n ∧ n ≤ total ∧ n ≤ held.length
  | _ => true

/-- The bytes are the first ones the kernel holds. -/
def readv (held : List β) : Answer → ReadV β
  | .data n => .data (held.take n)
  | .eof => .eof
  | .error => .error

lemma readv_fits {k : Answer} {total : ℕ} {held : List β} (h : k.possible total held = true) :
    (k.readv held).Fits total := by
  cases k with
  | data n =>
    simp only [possible, decide_eq_true_eq] at h
    obtain ⟨hpos, htotal, hheld⟩ := h
    have hlen : (held.take n).length = n := by rw [List.length_take, Nat.min_eq_left hheld]
    refine ⟨fun hnil => ?_, ?_⟩
    · rw [hnil, List.length_nil] at hlen
      omega
    · rwa [hlen]
  | eof => trivial
  | error => trivial

/-- What is read is a prefix of what is held. -/
lemma bytes_append_drop (k : Answer) (held : List β) :
    (k.readv held).bytes ++ held.drop (k.readv held).bytes.length = held := by
  cases k with
  | data n =>
    simp only [readv, ReadV.bytes, List.length_take]
    rcases Nat.le_total n held.length with h | h
    · rw [Nat.min_eq_left h, List.take_append_drop]
    · rw [Nat.min_eq_right h, List.drop_length, List.append_nil, List.take_of_length_le h]
  | eof => rfl
  | error => rfl

lemma readv_eq_eof {k : Answer} {held : List β} (h : k.readv held = .eof) : k = .eof := by
  cases k <;> first | rfl | nomatch h

end Answer

/-- The result of the call. -/
def call (s : Conn β) (desiredLen : ℕ) (k : Answer) : Recv β :=
  recv s.reader desiredLen (k.readv s.held)

def step (s : Conn β) : Label β → Option (Conn β)
  | .send bytes => some { s with held := s.held ++ bytes, sent := s.sent ++ bytes }
  | .recv desiredLen k =>
    if k.possible (desiredLen + bufferSize) s.held then
      let x := call s desiredLen k
      some { s with
        reader := x.reader
        held := if x.called then s.held.drop (k.readv s.held).bytes.length else s.held
        delivered := s.delivered ++ x.stored }
    else none

/-- A new connection; what the internal buffer holds does not matter. -/
def start (buffer : List β) (h : buffer.length = bufferSize) : Conn β :=
  ⟨⟨buffer, 0, 0, h⟩, [], [], []⟩

/-- What is still to come: buffered, and then held by the kernel. -/
def residual (s : Conn β) : List β := buffered s.reader ++ s.held

/-- Every byte sent is in its place. -/
structure Inv (s : Conn β) : Prop where
  wf : Wf s.reader
  sent : s.sent = s.delivered ++ residual s

lemma start_inv (buffer : List β) (h : buffer.length = bufferSize) : Inv (start buffer h) :=
  ⟨⟨Nat.le_refl _, Nat.zero_le _⟩, rfl⟩

/-- The lengths `recv` may be called with. -/
def Bounded : Label β → Prop
  | .recv desiredLen _ => desiredLen + bufferSize ≤ ssizeMax
  | .send _ => True

instance (l : Label β) : Decidable (Bounded l) :=
  match l with
  | .recv _ _ => inferInstanceAs (Decidable (_ ≤ _))
  | .send _ => inferInstanceAs (Decidable True)

/-- What one call does to the stream. -/
structure Faithful (s : Conn β) (desiredLen : ℕ) (k : Answer) (t : Conn β) : Prop where
  wf : Wf t.reader
  ret : 0 ≤ (call s desiredLen k).ret ∨ (call s desiredLen k).ret = -1
  stored : ∀ r : ℕ, (call s desiredLen k).ret = r → r ≤ desiredLen ∧
    (call s desiredLen k).stored.length = r ∧
    (call s desiredLen k).stored = (residual s).take r ∧ residual t = (residual s).drop r
  failed : (call s desiredLen k).ret = -1 →
    (call s desiredLen k).stored = [] ∧ residual t = residual s
  eof : (call s desiredLen k).ret = 0 → 0 < desiredLen →
    (call s desiredLen k).called = true ∧ k = .eof ∧ buffered s.reader = []

section

variable {s t : Conn β} {desiredLen : ℕ} {k : Answer}

lemma step_recv (h : step s (.recv desiredLen k) = some t) :
    k.possible (desiredLen + bufferSize) s.held = true ∧
      t = { s with
        reader := (call s desiredLen k).reader
        held := if (call s desiredLen k).called then
          s.held.drop (k.readv s.held).bytes.length else s.held
        delivered := s.delivered ++ (call s desiredLen k).stored } := by
  simp only [step] at h
  split at h
  · exact ⟨‹_›, (Option.some.inj h).symm⟩
  · cases h

lemma call_delivers (hi : Inv s) (hlen : desiredLen + bufferSize ≤ ssizeMax)
    (hk : k.possible (desiredLen + bufferSize) s.held = true) :
    Delivers s.reader desiredLen (k.readv s.held) (call s desiredLen k) :=
  recv_delivers hi.wf (by omega) (Answer.readv_fits hk)

/-- A call splits what is to come into what it stored and what is to come afterwards. -/
lemma residual_split (hi : Inv s) (hlen : desiredLen + bufferSize ≤ ssizeMax)
    (h : step s (.recv desiredLen k) = some t) :
    residual s = (call s desiredLen k).stored ++ residual t := by
  obtain ⟨hk, rfl⟩ := step_recv h
  have hd := (call_delivers hi hlen hk).stream
  unfold residual
  cases hcalled : (call s desiredLen k).called with
  | false =>
    rw [hcalled, if_neg Bool.false_ne_true, List.append_nil] at hd
    simp only [Bool.false_eq_true, if_false]
    rw [hd, List.append_assoc]
  | true =>
    rw [hcalled, if_pos rfl] at hd
    simp only [if_true]
    calc buffered s.reader ++ s.held
        = buffered s.reader ++ ((k.readv s.held).bytes ++
            s.held.drop (k.readv s.held).bytes.length) := by rw [Answer.bytes_append_drop]
      _ = (buffered s.reader ++ (k.readv s.held).bytes) ++
            s.held.drop (k.readv s.held).bytes.length := (List.append_assoc ..).symm
      _ = (call s desiredLen k).stored ++ (buffered (call s desiredLen k).reader ++
            s.held.drop (k.readv s.held).bytes.length) := by rw [hd, List.append_assoc]

lemma recv_faithful (hi : Inv s) (hlen : desiredLen + bufferSize ≤ ssizeMax)
    (h : step s (.recv desiredLen k) = some t) : Faithful s desiredLen k t := by
  have hsplit := residual_split hi hlen h
  obtain ⟨hk, rfl⟩ := step_recv h
  have hd := call_delivers hi hlen hk
  refine ⟨hd.wf, ?_, fun r hr => ?_, fun hr => ?_, fun h0 hpos => ?_⟩
  · rcases hd.ret with hret | ⟨hret, -⟩
    · exact Or.inl (by omega)
    · exact Or.inr hret
  · have hst : (call s desiredLen k).stored.length = r := by
      rcases hd.ret with hret | ⟨hret, -⟩ <;> omega
    have hshort := hd.short
    refine ⟨by omega, hst, ?_, ?_⟩
    · rw [hsplit, ← hst, List.take_left]
    · rw [hsplit, ← hst, List.drop_left]
  · have hst : (call s desiredLen k).stored = [] := by
      rcases hd.ret with hret | ⟨-, hst, -⟩
      · omega
      · exact hst
    rw [hst, List.nil_append] at hsplit
    exact ⟨hst, hsplit.symm⟩
  · obtain ⟨hcalled, heof⟩ := hd.eof h0 hpos
    exact ⟨hcalled, Answer.readv_eq_eof heof, (hd.called hcalled).1⟩

lemma step_inv {l : Label β} (hi : Inv s) (hl : Bounded l) (h : step s l = some t) : Inv t := by
  cases l with
  | send bytes =>
    cases h
    exact ⟨hi.wf, by simp [hi.sent, residual]⟩
  | recv desiredLen k =>
    refine ⟨(recv_faithful hi hl h).wf, ?_⟩
    have hsplit := residual_split hi hl h
    obtain ⟨-, rfl⟩ := step_recv h
    exact hi.sent.trans (by rw [hsplit, ← List.append_assoc])

end

/-- **Stream fidelity.** In every run each call hands on the next bytes of the stream, and what
was delivered is a prefix of what the peer sent: nothing is lost, repeated or reordered. -/
theorem stream_fidelity (buffer : List β) (hbuf : buffer.length = bufferSize)
    {ls : List (Label β)} {s : Conn β} (hls : ∀ l ∈ ls, Bounded l)
    (h : run step (start buffer hbuf) ls = some s) :
    Wf s.reader ∧ s.sent = s.delivered ++ residual s ∧ s.delivered <+: s.sent ∧
      ∀ desiredLen k t, desiredLen + bufferSize ≤ ssizeMax →
        step s (.recv desiredLen k) = some t → Faithful s desiredLen k t := by
  have hi : Inv s := run_inv_of_meets (fun s l t hi hl ht => step_inv hi hl ht)
    (start_inv buffer hbuf) (meets_of_forall (fun l hl _ => hls l hl) _) h
  exact ⟨hi.wf, hi.sent, ⟨_, hi.sent.symm⟩, fun _ _ _ hlen ht => recv_faithful hi hlen ht⟩

/-- Three bytes come at once: the first call hands on one of them, the second one the two that
were read ahead. -/
theorem stream_fidelity_readAhead :
    ∃ s, run step (start (List.replicate bufferSize 0) List.length_replicate)
        [.send [1, 2, 3], .recv 1 (.data 3), .recv 2 .error] = some s ∧
      s.delivered = [1, 2, 3] ∧ s.delivered <+: s.sent := by
  have hfit : [2, 3].take bufferSize = [2, 3] := List.take_of_length_le (by decide)
  have hlen : ∀ l ∈ [Label.send [1, 2, 3], .recv 1 (.data 3), .recv 2 .error], Bounded l := by
    decide
  refine ⟨_, rfl, ?_, (stream_fidelity _ List.length_replicate hlen rfl).2.2.1⟩
  simp [call, recv, Answer.readv, ReadV.ret, ReadV.bytes, overwrite, start, sub, add, toSsize,
    toSize, sizeMod, ssizeMax, hfit]

end Hbm.Stream
