import Hbm.Complete

/-!
Successive calls of `receiveComplete` cut the stream into pieces.

What a call returns, stores and leaves depends on the stream only, not on the way the stream was
split between the buffer and the kernel, nor on the sizes of the reads.
-/

namespace Hbm.Pieces

open Hbm.Size Hbm.BufferedReader Hbm.Syscall Hbm.Run Hbm.Complete

variable {β : Type*}

/-- The call takes the first `size` bytes of the stream `all` and leaves the rest. -/
structure Takes (all : List β) (size : ℕ) (x : Result β) : Prop where
  retVal : x.retVal = size
  stored : x.stored = all.take size
  rest : residual x.conn = all.drop size

/-- The call gets no more than `size` answers with bytes, and at any time it can still be answered
so that it returns. -/
def Returns (c : Conn β) (size : ℕ) (ls : List Label) : Prop :=
  (run step (start c size) ls).isSome →
    ls.countP Label.moves ≤ size ∧
      ∃ ms, (∀ l ∈ ms, l.Clean) ∧ (complete c size (ls ++ ms)).isSome

/-- Calls one after the other, each with its size and the answers it gets. -/
def calls (c : Conn β) : List (ℕ × List Label) → Option (List (ℤ × List β) × Conn β)
  | [] => some ([], c)
  | (size, ls) :: rest =>
    (complete c size ls).bind fun x =>
      (calls x.conn rest).map fun (xs, d) => ((x.retVal, x.stored) :: xs, d)

/-- Consecutive pieces of a stream, each with its size. -/
def cut : List ℕ → List β → List (ℤ × List β)
  | [], _ => []
  | size :: sizes, all => ((size : ℤ), all.take size) :: cut sizes (all.drop size)

variable {c d : Conn β} {size : ℕ} {ls : List Label} {x : Result β}

lemma takes_of_complete (hmax : size ≤ ssizeMax) (hw : Wf c.reader)
    (hsize : size ≤ (residual c).length) (hls : ∀ l ∈ ls, l.Clean)
    (h : complete c size ls = some x) : Wf x.conn.reader ∧ Takes (residual c) size x := by
  obtain ⟨hwf, hst, hrest, hret⟩ := complete_eq hmax hw hls h
  rw [if_pos hsize] at hret
  exact ⟨hwf, hret, hst, hrest⟩

lemma returns_of_clean (hmax : size ≤ ssizeMax) (hw : Wf c.reader) : Returns c size ls := by
  intro hrun
  obtain ⟨s, hs⟩ := Option.isSome_iff_exists.mp hrun
  have hi := inv_of_run hmax hw hs
  have hcount := moves_le hmax hw hs
  have hleft := hi.left
  refine ⟨by omega, ?_⟩
  obtain ⟨ms, t, v, hms, ht, hv⟩ := can_return hmax hi
  have hrun' : run step (start c size) (ls ++ ms) = some t := by
    rw [run_append, hs]
    exact ht
  refine ⟨ms, hms, Option.isSome_iff_exists.mpr ⟨⟨v, t.call.stored, t.conn⟩, ?_⟩⟩
  exact complete_some.mpr ⟨t, hrun', hv, rfl, rfl⟩

lemma cut_of_calls (hw : Wf c.reader) {xs : List (ℕ × List Label)} {rs : List (ℤ × List β)}
    (hxs : ∀ p ∈ xs, p.1 ≤ ssizeMax ∧ ∀ l ∈ p.2, l.Clean)
    (hsum : (xs.map Prod.fst).sum ≤ (residual c).length) (h : calls c xs = some (rs, d)) :
    rs = cut (xs.map Prod.fst) (residual c) ∧
      residual d = (residual c).drop (xs.map Prod.fst).sum := by
  induction xs generalizing c rs with
  | nil =>
    cases h
    exact ⟨rfl, rfl⟩
  | cons p xs ih =>
    obtain ⟨size, ls⟩ := p
    obtain ⟨x, hx, hrest⟩ := Option.bind_eq_some_iff.mp h
    obtain ⟨⟨ys, d'⟩, hys, heq⟩ := Option.map_eq_some_iff.mp hrest
    cases heq
    simp only [List.map_cons, List.sum_cons] at hsum ⊢
    obtain ⟨hmax, hls⟩ := hxs (size, ls) List.mem_cons_self
    obtain ⟨hwf, htakes⟩ := takes_of_complete hmax hw (by omega) hls hx
    have hlen : (residual x.conn).length = (residual c).length - size := by
      rw [htakes.rest, List.length_drop]
    obtain ⟨hcut, hend⟩ :=
      ih hwf (fun p hp => hxs p (List.mem_cons_of_mem _ hp)) (by omega) hys
    rw [hcut, hend, htakes.rest, htakes.retVal, htakes.stored, List.drop_drop]
    exact ⟨rfl, rfl⟩

/-- **Segmentation does not matter.** Two connections with the same stream to come, however much
of it is buffered and however it is cut into reads: both calls return `size`, store the first
`size` bytes and leave the rest, and successive calls cut the stream into the same pieces. The
caller's area has `size` bytes, so `size` is at most SSIZE_MAX. -/
theorem segmentation (hc : Wf c.reader) (hd : Wf d.reader) (hres : residual d = residual c) :
    (∀ size ls ms, size ≤ ssizeMax → size ≤ (residual c).length → (∀ l ∈ ls, l.Clean) →
      (∀ l ∈ ms, l.Clean) → Returns c size ls ∧ Returns d size ms ∧
        (∀ x, complete c size ls = some x → Takes (residual c) size x) ∧
        ∀ y, complete d size ms = some y → Takes (residual c) size y) ∧
    ∀ xs ys rs qs c' d', xs.map Prod.fst = ys.map Prod.fst →
      (∀ p ∈ xs ++ ys, p.1 ≤ ssizeMax ∧ ∀ l ∈ p.2, l.Clean) →
      (xs.map Prod.fst).sum ≤ (residual c).length →
      calls c xs = some (rs, c') → calls d ys = some (qs, d') →
        rs = cut (xs.map Prod.fst) (residual c) ∧ qs = rs ∧
          residual c' = (residual c).drop (xs.map Prod.fst).sum ∧ residual d' = residual c' := by
  constructor
  · intro size ls ms hmax hsize hls hms
    refine ⟨returns_of_clean hmax hc, returns_of_clean hmax hd, fun x hx => ?_, fun y hy => ?_⟩
    · exact (takes_of_complete hmax hc hsize hls hx).2
    · rw [← hres] at hsize ⊢
      exact (takes_of_complete hmax hd hsize hms hy).2
  · intro xs ys rs qs c' d' hsame hall hsum hx hy
    have hleft := cut_of_calls hc (fun p hp => hall p (List.mem_append_left _ hp)) hsum hx
    have hright := cut_of_calls hd (fun p hp => hall p (List.mem_append_right _ hp))
      (by rw [← hsame, hres]; exact hsum) hy
    rw [← hsame, hres] at hright
    exact ⟨hleft.1, hright.1.trans hleft.1.symm, hleft.2, hright.2.trans hleft.2.symm⟩

/-- Five bytes to come, none of them buffered. -/
def unread : Conn ℕ := ⟨⟨List.replicate bufferSize 0, 0, 0, List.length_replicate⟩, [1, 2, 3, 4, 5]⟩

/-- The same stream with two bytes buffered. -/
def readAhead : Conn ℕ :=
  ⟨⟨[1, 2] ++ List.replicate 65534 0, 2, 0, by
    rw [List.length_append, List.length_replicate]
    rfl⟩, [3, 4, 5]⟩

def bytewise : List Label :=
  [.read (.data 1) .other, .read .error .again, .poll (.failed .intr), .poll .ready,
    .read (.data 2) .other]

def atOnce : List Label := [.served, .read (.data 3) .other]

theorem segmentation_readAhead :
    ∃ x y, complete unread 3 bytewise = some x ∧ complete readAhead 3 atOnce = some y ∧
      Takes [1, 2, 3, 4, 5] 3 x ∧ Takes [1, 2, 3, 4, 5] 3 y := by
  have hx : complete unread 3 bytewise = some _ := rfl
  have hy : complete readAhead 3 atOnce = some _ := rfl
  have hunread : residual unread = [1, 2, 3, 4, 5] := rfl
  have hc : Wf unread.reader := ⟨Nat.le_refl _, Nat.zero_le _⟩
  have hd : Wf readAhead.reader := ⟨Nat.zero_le _, by decide⟩
  have h := (segmentation hc hd rfl).1 3 bytewise atOnce (by decide) (by decide) (by decide)
    (by decide)
  rw [hunread] at h
  exact ⟨_, _, hx, hy, h.2.2.1 _ hx, h.2.2.2 _ hy⟩

end Hbm.Pieces
