import Hbm.Pieces
import Hbm.WindowsComplete

/-!
The peer shuts the connection down before a request is complete, under Linux and under Windows.

Both versions store what came. Linux returns how much it was, cast to an `int`, and Windows
returns -1.
-/

namespace Hbm.Shutdown

open Hbm.Size Hbm.BufferedReader Hbm.Syscall Hbm.Complete Hbm.Pieces

variable {β : Type*}

/-- The whole stream is stored, and its length is returned. -/
def Reported (all : List β) (x : Result β) : Prop := x.stored = all ∧ x.retVal = all.length

/-- **Orderly shutdown** after a stream that is shorter than the request. Under Linux the call
returns, and with the length of the stream exactly if an `int` holds it. Under Windows, where
`ssize_t` is an `int`, it never returns this length. -/
theorem shutdown {c d : Conn β} {size : ℕ} (hc : Wf c.reader) (hd : Wf d.reader)
    (hres : residual d = residual c) (hmax : size ≤ ssizeMax)
    (hshort : (residual c).length < size) :
    (∀ ls, (∀ l ∈ ls, l.Clean) → Returns c size ls ∧ ∀ x, complete c size ls = some x →
      x.stored = residual c ∧ (Reported (residual c) x ↔ (residual c).length < 2 ^ 31)) ∧
    (size < 2 ^ 31 → ∀ ms, (∀ m ∈ ms, m.Clean) → ∀ y, WindowsComplete.complete d size ms = some y →
      y.stored = residual c ∧ y.retVal = -1 ∧ ¬ Reported (residual c) y) := by
  constructor
  · intro ls hls
    refine ⟨returns_of_clean hmax hc, fun x hx => ?_⟩
    obtain ⟨-, hst, -, hret⟩ := complete_eq hmax hc hls hx
    rw [List.take_of_length_le (Nat.le_of_lt hshort)] at hst
    rw [if_neg (Nat.not_le.mpr hshort)] at hret
    refine ⟨hst, ?_⟩
    rw [Reported, hret, toInt_eq_iff]
    exact and_iff_right hst
  · intro hint ms hms y hy
    obtain ⟨hst, hret⟩ := WindowsComplete.complete_short hint hd (hres ▸ hshort) hms hy
    refine ⟨hst.trans hres, hret, fun hreported => ?_⟩
    have hlen := hreported.2
    omega

lemma length_zeros : (List.replicate bufferSize (0 : UInt8)).length = bufferSize :=
  List.length_replicate

/-- Three bytes to come. -/
def threeBytes : Conn UInt8 := ⟨⟨List.replicate bufferSize 0, 0, 0, length_zeros⟩, [1, 2, 3]⟩

theorem shutdown_threeBytes :
    ∃ x, complete threeBytes 4 [.read (.data 3) .other, .read .eof .other] = some x ∧
      Reported [1, 2, 3] x := by
  let ls : List Label := [.read (.data 3) .other, .read .eof .other]
  have hx : complete threeBytes 4 ls = some _ := rfl
  have hw : Wf threeBytes.reader := ⟨Nat.le_refl _, Nat.zero_le _⟩
  have hres : residual threeBytes = [1, 2, 3] := rfl
  have hshort : (residual threeBytes).length < 4 := by rw [hres]; decide
  have h := (shutdown hw hw rfl (by decide) hshort).1 ls (by decide)
  exact ⟨_, hx, (h.2 _ hx).2.mpr (by rw [hres]; decide)⟩

/-- The same stream under both systems: 3 is returned under Linux, and -1 under Windows. -/
theorem shutdown_differs :
    ∃ x y, complete threeBytes 4 [.read (.data 3) .other, .read .eof .other] = some x ∧
      WindowsComplete.complete threeBytes 4
        [.recv (.reads (.ok 3) .done (.ok 3)), .recv (.reads (.ok 0) .done (.ok 0))] = some y ∧
      x.retVal = 3 ∧ y.retVal = -1 ∧ ¬ Reported [1, 2, 3] y := by
  refine ⟨_, _, rfl, rfl, by decide +kernel, rfl, fun h => ?_⟩
  exact absurd (show (-1 : ℤ) = 3 from h.2) (by decide)

end Hbm.Shutdown
