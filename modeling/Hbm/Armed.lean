import Hbm.OneShot
import Mathlib.Algebra.Order.Ring.Int

/-!
What the timerfd is armed with, after `set` and after a `cancel` in whose callback the timer was
set.

The overload of `set` with a duration casts its 64 bits to an `unsigned int`. And `cancel` disarms
the timerfd after it has called the callback, whatever this has done.
-/

namespace Hbm.Armed

open Hbm.Run Hbm.Timer Hbm.OneShot

variable {C : Type*}

/-! ### The period -/

/-- The timerfd is armed with `p` milliseconds, and with nothing left over. -/
structure ArmedExactly (p : ℤ) (repeated : Bool) (fd : Timerfd) : Prop where
  value : (fd.spec.value.sec : ℤ) * 1000 + (fd.spec.value.nsec / 1000000 : ℕ) = p
  nsec : fd.spec.value.nsec < 1000000000
  rest : fd.spec.value.nsec % 1000000 = 0
  interval : fd.spec.interval = if repeated then fd.spec.value else .zero

/-- `set` refuses the duration and leaves the timerfd, or arms it with the duration. -/
def ArmsOrRefuses (s : St C) (p : Int64) (repeated : Bool) (c : Option C) : Prop :=
  ((setDuration s p.toInt repeated c).1 = -1 ∧ (setDuration s p.toInt repeated c).2.fd = s.fd) ∨
    ((setDuration s p.toInt repeated c).1 = 0 ∧
      ArmedExactly p.toInt repeated (setDuration s p.toInt repeated c).2.fd)

/-- The `unsigned int` keeps the duration, or makes it zero. -/
def Fits (p : Int64) : Prop := (0 ≤ p.toInt ∧ p.toInt < 2 ^ 32) ∨ (2 ^ 32 : ℤ) ∣ p.toInt

/-- Seconds and nanoseconds of a number of milliseconds; no multiplication overflows. -/
lemma timespec_value (p : UInt32) (r : Bool) :
    (timespec p r).value = ⟨p.toNat / 1000, p.toNat % 1000 * 1000000⟩ := by
  have hsec : (p / 1000).toNat = p.toNat / 1000 := UInt32.toNat_div ..
  have hnsec : (p % 1000 * 1000 * 1000).toNat = p.toNat % 1000 * 1000000 := by
    rw [UInt32.toNat_mul, UInt32.toNat_mul, UInt32.toNat_mod,
      show (1000 : UInt32).toNat = 1000 from rfl]
    omega
  simp only [timespec, hsec, hnsec]

/-- What `set` arms the timerfd with is the `unsigned int`. -/
lemma armedExactly_iff (q : UInt32) (r : Bool) (p : ℤ) :
    ArmedExactly p r (.settime (timespec q r)) ↔ (q.toNat : ℤ) = p := by
  have hv : (Timerfd.settime (timespec q r)).spec.value =
      ⟨q.toNat / 1000, q.toNat % 1000 * 1000000⟩ := timespec_value q r
  constructor
  · intro h
    have := h.value
    rw [hv] at this
    simp only at this
    omega
  · rintro rfl
    refine ⟨?_, ?_, ?_, rfl⟩ <;> rw [hv] <;> simp only <;> omega

lemma toNat_ofInt (p : ℤ) : ((UInt32.ofInt p).toNat : ℤ) = p % 2 ^ 32 := by
  have hlt := Int.emod_lt_of_pos p (show (0 : ℤ) < 2 ^ 32 by decide)
  have hnonneg := Int.emod_nonneg p (show (2 ^ 32 : ℤ) ≠ 0 by decide)
  rw [UInt32.ofInt, UInt32.toNat_ofNat']
  omega

/-- **A duration is armed exactly or refused** exactly if it is one of an `unsigned int`, or a
multiple of `2 ^ 32`, which is refused. -/
theorem armsOrRefuses_iff (s : St C) (p : Int64) (repeated : Bool) (c : Option C) :
    ArmsOrRefuses s p repeated c ↔ Fits p := by
  have hcast := toNat_ofInt p.toInt
  unfold ArmsOrRefuses Fits setDuration
  by_cases hz : UInt32.ofInt p.toInt = 0
  · -- refused
    rw [hz] at hcast ⊢
    have hdvd : (2 ^ 32 : ℤ) ∣ p.toInt := Int.dvd_of_emod_eq_zero hcast.symm
    exact iff_of_true (.inl ⟨rfl, rfl⟩) (.inr hdvd)
  · have hret : (set s (UInt32.ofInt p.toInt) repeated c).1 = 0 := by simp [Timer.set, hz]
    have hdvd : ¬ (2 ^ 32 : ℤ) ∣ p.toInt := by
      intro h
      refine hz (UInt32.toNat_inj.mp (Int.ofNat.inj ?_))
      exact hcast.trans (Int.emod_eq_zero_of_dvd h)
    rw [hret, set_of_ne hz, or_iff_right (by simp), armedExactly_iff, hcast]
    simp only [true_and, or_iff_left hdvd]
    omega

/-- A period of 2^32 + 1 milliseconds is accepted, and the timer armed with one. -/
theorem armed_differently :
    ¬ ∀ p : Int64, ArmsOrRefuses (construct : St Unit) p false (some ()) := by
  intro h
  have hfits := (armsOrRefuses_iff _ _ _ _).mp (h 4294967297)
  exact absurd hfits (by unfold Fits; decide)

/-! ### A timer set in the callback of `cancel` -/

/-- The call sets the timer. -/
def Sets (p : UInt32) (repeated : Bool) (c : C) : Label C → Prop
  | .set q r h => q = p ∧ r = repeated ∧ h = some c
  | .setDuration q r h => UInt32.ofInt q = p ∧ r = repeated ∧ h = some c
  | _ => False

/-- `cancel` finds the timer running and tells its callback. This sets the timer anew, among
other calls of any depth, and `cancel` returns. -/
structure SetInCancel (s : St C) (p : UInt32) (repeated : Bool) (c : C) (ls : List (Label C))
    (t : St C) : Prop where
  running : s.fd.running = true
  handler : s.eventHandler.IsCb
  inside : Always step (fun u => ∃ inner, u.calls = inner ++ .cancel :: s.calls) (cancel s) ls
  sets : ∃ l ∈ ls, Sets p repeated c l
  period : p ≠ 0
  returns : ∃ u, run step (cancel s) ls = some u ∧ u.calls = .cancel :: s.calls ∧
    step u .ret = some t

/-- The timer runs with the period, and its expiration will call the callback. -/
structure Rearmed (p : UInt32) (repeated : Bool) (c : C) (t : St C) : Prop where
  running : t.fd.running = true
  spec : t.fd.spec = timespec p repeated
  handler : t.eventHandler = .cb c

/-- Nothing will expire, and nothing has. -/
def Disarmed (s : St C) : Prop := s.fd.running = false ∧ s.fd.pending = 0

variable {s t : St C} {p : UInt32} {r : Bool} {c : C} {ls : List (Label C)}

lemma SetInCancel.disarmed (h : SetInCancel s p r c ls t) : Disarmed t := by
  obtain ⟨u, -, hcalls, hret⟩ := h.returns
  simp only [step, hcalls, Option.some.injEq] at hret
  subst hret
  exact ⟨rfl, rfl⟩

/-- A timer that is not set stays disarmed. -/
lemma disarmed_step {l : Label C} (hs : Disarmed s) (hn : NoSet l) (h : step s l = some t) :
    Disarmed t := by
  cases quiet_of_step hn h with
  | cancel =>
    obtain ⟨ret, hc⟩ := cancel_of_dead (s := s) (.inl hs.1)
    rw [hc]
    exact ⟨rfl, rfl⟩
  | expire hr =>
    rw [hs.1] at hr
    cases hr
  | process =>
    rw [process_of_read hs.2]
    exact hs
  | cancelled cs hc => exact ⟨rfl, rfl⟩
  | calls l cs hl => exact hs

/-- **A timer set in the callback of `cancel` is lost.** Whatever the callback of a running timer
does, when `cancel` has returned the timer is disarmed. It is not armed with the period that was
set in the callback, and until it is set again nothing is called for it. -/
theorem set_in_cancel (h : SetInCancel s p r c ls t) : ¬ Rearmed p r c t ∧
    ∀ later u, (∀ l ∈ later, NoSet l) → run step t later = some u → (process u).1 = none := by
  refine ⟨fun ha => ?_, fun later u hn hrun => ?_⟩
  · have hr := ha.running
    rw [h.disarmed.1] at hr
    cases hr
  · have hu : Disarmed u :=
      run_inv_of_labels (fun _ _ _ hs hl ht => disarmed_step hs hl ht) h.disarmed hn hrun
    simp [process, hu.2]

/-- A timer that runs with callback `false`. -/
def started : St Bool := (Timer.set construct 50 false (some false)).2

/-- The callback sets the timer again, with callback `true`. -/
def again : List (Label Bool) := [.set 30 false (some true)]

lemma setInCancel_again : ∃ t, SetInCancel started 30 false true again t := by
  refine ⟨_, rfl, ⟨false, rfl⟩, ?_, ⟨_, List.mem_singleton_self _, rfl, rfl, rfl⟩, by decide, _,
    rfl, rfl, rfl⟩
  intro ks u hks hu
  rcases List.prefix_cons_iff.mp hks with rfl | ⟨ks', rfl, hks'⟩
  · cases hu
    exact ⟨[], rfl⟩
  · obtain rfl := List.prefix_nil.mp hks'
    cases hu
    exact ⟨[], rfl⟩

theorem set_in_cancel_again : ∃ t, ¬ Rearmed 30 false true t ∧
    ∀ later u, (∀ l ∈ later, NoSet l) → run step t later = some u → (process u).1 = none := by
  obtain ⟨t, ht⟩ := setInCancel_again
  exact ⟨t, set_in_cancel ht⟩

/-- The inner `set` has returned success, and the timer is not armed. -/
theorem not_running_after_cancel :
    ¬ ∀ (s t : St Bool) (p : UInt32) (r c : Bool) (ls : List (Label Bool)),
      SetInCancel s p r c ls t → Rearmed p r c t := by
  intro h
  obtain ⟨t, ht⟩ := setInCancel_again
  have hr := (h _ _ _ _ _ _ ht).running
  rw [ht.disarmed.1] at hr
  cases hr

end Hbm.Armed
