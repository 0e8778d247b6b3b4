import Hbm.BufferedReader

/-!
Receiving through the buffered reader: once, or repeated until the request is complete.
-/

namespace Hbm.Receive

open Hbm.Size Hbm.BufferedReader Hbm.Syscall

variable {β : Type*}

def receive (r : Reader β) (size : ℕ) (k : ReadV β) : Recv β := recv r size k

/-- Where `receiveComplete` stands. -/
inductive Pc
  | recv
  | poll
  | returned (retVal : ℤ)
  deriving DecidableEq

/-- The variables of `receiveComplete`; `stored` is what was stored from `pBlock` on. -/
structure Call (β : Type*) where
  size : ℕ
  sizeLeft : ℕ
  stored : List β
  pc : Pc

/-- The condition of the loop. -/
def loop (c : Call β) : Call β :=
  { c with pc := if c.sizeLeft ≠ 0 then .recv else .returned (toSsize c.size) }

def receiveComplete (size : ℕ) : Call β := loop ⟨size, size, [], .recv⟩

/-- One call of `recv`; `e` is `errno` afterwards. -/
def received (c : Call β) (x : Recv β) (e : Errno) : Call β :=
  let c := { c with stored := c.stored ++ x.stored }
  if 0 < x.ret then loop { c with sizeLeft := sub c.sizeLeft (toSize x.ret) }
  else if x.ret = 0 then { c with pc := .returned (toInt (sub c.size c.sizeLeft)) }
  else if e = .wouldBlock ∨ e = .again then { c with pc := .poll }
  else { c with pc := .returned (-1) }

/-- One call of `poll`. -/
def polled (c : Call β) (p : Poll) : Call β :=
  if p = .failed .intr then c
  else if p.ret ≠ 1 then { c with pc := .returned (-1) }
  else loop c

lemma loop_sizeLeft (c : Call β) : (loop c).sizeLeft = c.sizeLeft := rfl

/-- The request never grows. -/
lemma received_sizeLeft {c : Call β} {x : Recv β} {e : Errno} (hc : c.sizeLeft < sizeMod)
    (hx : x.ret ≤ c.sizeLeft) : (received c x e).sizeLeft ≤ c.sizeLeft := by
  unfold received
  simp only
  split
  · rename_i hpos
    obtain ⟨n, hn⟩ := Int.eq_ofNat_of_zero_le (Int.le_of_lt hpos)
    rw [hn] at hx ⊢
    rw [loop_sizeLeft, toSize_natCast (by omega), sub_eq hc (by omega)]
    exact Nat.sub_le _ _
  split
  · exact Nat.le_refl _
  split <;> exact Nat.le_refl _

lemma polled_sizeLeft (c : Call β) (p : Poll) : (polled c p).sizeLeft = c.sizeLeft := by
  unfold polled
  split
  · rfl
  split <;> rfl

end Hbm.Receive
