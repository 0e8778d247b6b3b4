import Hbm.Dispatch

/-!
The turns of the inner loop: the slots in order, and in each slot first the input and then the
output direction.

Two facts hold at every turn. A pending event has a handler, as long as erasures look at the
whole batch. And `eventsLeft` counts what is left: while it is zero, no event of a turn the
loop has passed in this round is pending.
-/

namespace Hbm.Turns

open Hbm.Mask Hbm.Epoll Hbm.Handlers Hbm.Execute Hbm.Dispatch

variable {H K : Type*}

/-! ### A pending event has a handler -/

lemma turnOff_le [Kernel K] (d d' : Dir) (l : EventLoop H K) (fd : Fd) (n : ℕ) :
    ((eraseHandler d l fd).1.events n).ptr = (l.events n).ptr ∧
      (has ((eraseHandler d l fd).1.events n).events d'.bit = true →
        has (l.events n).events d'.bit = true) := by
  rcases hh : handler l.eventInfos fd d with _ | g
  · rw [eraseHandler_none hh]; exact ⟨rfl, id⟩
  · obtain ⟨op, ev, p, e, infos, hf, he, hres, hc⟩ := eraseHandler_some hh
    rw [hres]
    exact ⟨turnOff_ptr, has_of_has_turnOff⟩

def Ready (s : St H K) : Prop :=
  ∀ n d p, n < armed s → (s.lo.events n).ptr = some p → Pending s n d →
    (handler s.lo.eventInfos (s.src n) d).isSome

section Ready

variable {s t : St H K}

lemma Ready.of_le (hs : Ready s) (harm : armed t ≤ armed s) (hsrc : t.src = s.src)
    (hinfos : t.lo.eventInfos = s.lo.eventInfos)
    (hptr : ∀ n, (t.lo.events n).ptr = (s.lo.events n).ptr)
    (hpend : ∀ n d, Pending t n d → Pending s n d) : Ready t := by
  intro n d p hn h1 h2
  rw [hptr] at h1
  rw [hsrc, hinfos]
  exact hs n d p (by omega) h1 (hpend n d h2)

lemma armed_next {round n : ℕ} {d : Dir} {p : Addr} {k k' : ℕ} {c : ℤ}
    (hpc : s.pc = .bit round n d p k ∨ s.pc = .running round n d p k)
    (hc : c = s.lo.eventCount) : armedAt c (next round n d p k') = armed s := by
  rw [armedAt_next, hc]
  rcases hpc with h | h <;> simp [h]

lemma ready_tau (hr : Ready s) (h : Tau s t) : Ready t := by
  cases h with
  | store ret eintr hpc pc hnew =>
    refine hr.of_le ?_ rfl rfl (fun _ => rfl) (fun _ _ h => h)
    rcases hnew with ⟨rfl, -⟩ | rfl <;> simp [hpc]
  | skip round n d p k hpc hb =>
    exact hr.of_le (armed_next (Or.inl hpc) rfl).le rfl rfl (fun _ => rfl) (fun _ _ h => h)
  | empty round n d p k e hpc hb hm he =>
    exact hr.of_le (armed_next (Or.inl hpc) rfl).le rfl rfl (fun _ => rfl) (fun _ _ h => h)
  | lock hpc | stop _ _ _ hpc | enter _ _ _ _ hpc | unlock _ _ hpc | again _ _ _ hpc
  | dangling _ _ _ _ _ hpc | invoke _ _ _ _ _ _ _ hpc =>
    exact hr.of_le (by simp [hpc]) rfl rfl (fun _ => rfl) (fun _ _ h => h)

lemma ready_ret (hr : Ready s) {th : Thread} {r : ℤ} (h : Ret s th r t) : Ready t := by
  cases h with
  | again f rest hd hr0 => exact hr.of_le le_rfl rfl rfl (fun _ => rfl) (fun _ _ h => h)
  | drained f rest hd hr0 => exact hr.of_le le_rfl rfl rfl (fun _ => rfl) (fun _ _ h => h)
  | more round n d p k hd ht hpc hr0 =>
    exact hr.of_le (armed_next (Or.inr hpc) rfl).le rfl rfl (fun _ => rfl) (fun _ _ h => h)
  | done round n d p k hd ht hpc hr0 =>
    exact hr.of_le (armed_next (Or.inr hpc) rfl).le rfl rfl
      (fun m => turnOffSlot_ptr s.lo n m d) (fun _ _ h => has_of_turnOffSlot h)

lemma ready_add [Kernel K] (hr : Ready s) {d : Dir} {fd : Fd} (eh : Option H) {a : Addr}
    (ha : s.lo.eventInfos.mem a = none) (hlo : t.lo = (addHandler d s.lo fd eh a ha).1)
    (hpc : t.pc = s.pc) (hsrc : t.src = s.src) : Ready t := by
  have hev : t.lo.events = s.lo.events := by rw [hlo, addHandler_events]
  have hc : t.lo.eventCount = s.lo.eventCount := by rw [hlo, addHandler_eventCount]
  intro n d' p hn hp hpend
  rw [armed_def, hc, hpc] at hn
  rw [hev] at hp
  have hold := hr n d' p hn hp (by rwa [Pending, ← hev])
  rw [hsrc, hlo]
  by_cases hk : s.src n = fd ∧ d' = d
  · obtain ⟨hk, rfl⟩ := hk
    rw [hk] at hold ⊢
    rcases eh with _ | h
    · exact hold
    · by_cases hfd : fd = -1
      · subst hfd
        rw [addHandler_neg]
        exact hold
      · rw [handler_addHandler_self hfd]
        rfl
  · rw [handler_addHandler_of_ne eh hk]
    exact hold

/-- An erasure that looks at the whole batch turns off the events it leaves without handler. -/
lemma ready_erase [Kernel K] (hr : Ready s) (hs : Safe s)
    (harm : armed s ≤ s.lo.eventCount.toNat) {d : Dir} {fd : Fd}
    (hlo : t.lo = (eraseHandler d s.lo fd).1) (hpc : t.pc = s.pc) (hsrc : t.src = s.src) :
    Ready t := by
  intro n d' p hn hp hpend
  obtain ⟨h1, h2⟩ := turnOff_le d d' s.lo fd n
  rw [armed_def, hlo, hpc, eraseHandler_eventCount] at hn
  rw [hlo, h1] at hp
  rw [Pending, hlo] at hpend
  have hold := hr n d' p hn hp (h2 hpend)
  rw [hsrc, hlo]
  by_cases hk : s.src n = fd ∧ d' = d
  · obtain ⟨hk, rfl⟩ := hk
    rw [hk] at hold
    obtain ⟨g, hg⟩ := Option.isSome_iff_exists.mp hold
    obtain ⟨op, ev, p', e, infos, hf, he, hres, -⟩ := eraseHandler_some hg
    obtain ⟨e', hf'⟩ := hs.live n d' p hn hp (h2 hpend)
    rw [hk, hf] at hf'
    cases hf'
    rw [hres] at hpend
    have hoff := erased_off hs hn (lt_of_lt_of_le hn harm) hp hpend
    rw [← Bool.not_eq_true, has_removedEvents] at hoff
    exact absurd (Or.inl rfl) hoff
  · rw [handler_eraseHandler_of_ne hk]
    exact hold

lemma ready_call [Kernel K] (hr : Ready s) (hs : Safe s)
    (harm : armed s ≤ s.lo.eventCount.toNat) {th : Thread} {c : Call H}
    (h : CallStep s th c t) : Ready t := by
  cases h with
  | added d fd g a ha hr' => exact ready_add hr (some g) ha rfl rfl rfl
  | refused d fd eh a ha hr' => exact ready_add hr eh ha rfl rfl rfl
  | erased d fd g hh => exact ready_erase hr hs harm rfl rfl rfl
  | absent d fd hh => exact hr

end Ready

/-! ### Turns -/

/-- The place of a direction of a slot in a round. -/
def turn (x : ℕ × Dir) : ℕ := 2 * x.1 + match x.2 with | .inp => 0 | .out => 1

lemma turn_inj : Function.Injective turn := by
  rintro ⟨m, d⟩ ⟨n, e⟩ h
  cases d <;> cases e <;> simp only [turn] at h
  · obtain rfl : m = n := by omega
    rfl
  · omega
  · omega
  · obtain rfl : m = n := by omega
    rfl

variable {s t : St H K} {round n : ℕ} {d : Dir} {p : Addr} {k : ℕ}

lemma turn_lt_inp {x : ℕ × Dir} : turn x < turn (n, .inp) ↔ x.1 < n := by
  obtain ⟨m, d⟩ := x
  cases d <;> simp only [turn] <;> omega

lemma turn_lt_out {x : ℕ × Dir} : turn x < turn (n, .out) ↔ turn x ≤ turn (n, .inp) := by
  obtain ⟨m, d⟩ := x
  cases d <;> simp only [turn] <;> omega

lemma turn_le_out {x : ℕ × Dir} : turn x ≤ turn (n, .out) ↔ x.1 < n + 1 := by
  obtain ⟨m, d⟩ := x
  cases d <;> simp only [turn] <;> omega

/-! ### What is left -/

/-- The loop has been at the turn `x` of this round and has counted nothing as left. -/
@[simp] def Idle (x : ℕ × Dir) : Pc → Prop
  | .slot _ n k => k = 0 ∧ x.1 < n
  | .bit _ n d _ k => k = 0 ∧ turn x < turn (n, d)
  | .running _ n d _ k => k = 0 ∧ turn x < turn (n, d)
  | _ => False

def IdleOff (s : St H K) : Prop :=
  ∀ n d, n < s.lo.eventCount.toNat → (s.lo.events n).ptr ≠ none → Idle (n, d) s.pc →
    ¬ Pending s n d

lemma idle_next {x : ℕ × Dir} :
    Idle x (next round n d p k) ↔ k = 0 ∧ turn x ≤ turn (n, d) := by
  cases d
  · simp only [next, Idle, turn_lt_out]
  · simp only [next, Idle, turn_le_out]

lemma IdleOff.of_le (hi : IdleOff s) (hc : t.lo.eventCount = s.lo.eventCount)
    (hptr : ∀ n, (t.lo.events n).ptr = (s.lo.events n).ptr)
    (hpend : ∀ n d, Pending t n d → Pending s n d)
    (hidle : ∀ n d, Pending t n d → Idle (n, d) t.pc → Idle (n, d) s.pc) : IdleOff t := by
  intro n d hn hp hid hpd
  rw [hc] at hn
  rw [hptr] at hp
  exact hi n d hn hp (hidle n d hpd hid) (hpend n d hpd)

/-- A turn after which nothing is pending there. -/
lemma IdleOff.to_next (hi : IdleOff s) {k' : ℕ}
    (hpc : s.pc = .bit round n d p k ∨ s.pc = .running round n d p k)
    (ht : t.pc = next round n d p k') (hc : t.lo.eventCount = s.lo.eventCount)
    (hptr : ∀ n, (t.lo.events n).ptr = (s.lo.events n).ptr)
    (hpend : ∀ n d, Pending t n d → Pending s n d)
    (hk : k' = 0 → k = 0 ∧ ¬ Pending t n d) : IdleOff t := by
  refine hi.of_le hc hptr hpend fun m e hpd h => ?_
  rw [ht, idle_next] at h
  obtain ⟨h0, hle⟩ := h
  obtain ⟨hk0, hoff⟩ := hk h0
  have hne : turn (m, e) ≠ turn (n, d) := by
    intro heq
    obtain ⟨rfl, rfl⟩ := Prod.mk.inj (turn_inj heq)
    exact hoff hpd
  rcases hpc with hpc | hpc <;> rw [hpc] <;> exact ⟨hk0, by omega⟩

lemma idle_tau (hi : IdleOff s) (hs : Safe s) (hr : Ready s) (h : Tau s t) : IdleOff t := by
  cases h with
  | store ret eintr hpc pc hnew =>
    intro n d _ _ hid
    rcases hnew with ⟨rfl, -⟩ | rfl <;> exact absurd hid id
  | lock hpc => exact fun n d _ _ hid => absurd hid.2 (Nat.not_lt_zero n)
  | stop round n k hpc hn hp => exact fun n d _ _ hid => absurd hid id
  | enter round n k p hpc hn hp =>
    refine hi.of_le rfl (fun _ => rfl) (fun _ _ h => h) fun m e _ h => ?_
    simpa only [hpc, Idle, turn_lt_inp] using h
  | unlock round n hpc hn => exact fun n d _ _ hid => absurd hid id
  | again round n k hpc hn hne => exact fun n d _ _ hid => absurd hid.2 (Nat.not_lt_zero n)
  | skip round n d p k hpc hb =>
    refine hi.to_next (Or.inl hpc) rfl rfl (fun _ => rfl) (fun _ _ h => h) fun h0 => ⟨h0, ?_⟩
    rw [Pending]
    simp [hb]
  | dangling round n d p k hpc hb hm => exact fun n d _ _ hid => absurd hid id
  | empty round n d p k e hpc hb hm he =>
    obtain ⟨hn, hp⟩ := hs.here round n d p k (Or.inl hpc)
    obtain ⟨e', hf⟩ := hs.live n d p hn hp hb
    have hset := hr n d p hn hp hb
    rw [(NodeMap.find_eq_some.mp hf).2] at hm
    cases hm
    rw [handler, hf, Option.bind_some, he] at hset
    cases hset
  | invoke round n d p k e g hpc hb hm he =>
    refine hi.of_le rfl (fun _ => rfl) (fun _ _ h => h) fun m e _ h => ?_
    rw [hpc]
    exact h

lemma not_pending_turnOffSlot (l : EventLoop H K) (n : ℕ) (d : Dir) :
    has ((turnOffSlot l n d).events n).events d.bit = false := by
  simp [turnOffSlot]

lemma idle_ret (hi : IdleOff s) {th : Thread} {r : ℤ} (h : Ret s th r t) : IdleOff t := by
  cases h with
  | again f rest hd hr => exact hi
  | drained f rest hd hr => exact hi
  | more round n d p k hd ht hpc hr =>
    exact hi.to_next (Or.inr hpc) rfl rfl (fun _ => rfl) (fun _ _ h => h) (by omega)
  | done round n d p k hd ht hpc hr =>
    refine hi.to_next (Or.inr hpc) rfl rfl (fun m => turnOffSlot_ptr s.lo n m d)
      (fun _ _ h => has_of_turnOffSlot h) (fun h0 => ⟨h0, ?_⟩)
    simp [Pending, not_pending_turnOffSlot]

lemma idle_call [Kernel K] (hi : IdleOff s) {th : Thread} {c : Call H} (h : CallStep s th c t) :
    IdleOff t := by
  cases h with
  | added d fd g a ha hr =>
    exact hi.of_le (by simp) (fun n => by simp) (fun n d' h => by simpa [Pending] using h)
      (fun _ _ _ h => h)
  | refused d fd eh a ha hr =>
    exact hi.of_le (by simp) (fun n => by simp) (fun n d' h => by simpa [Pending] using h)
      (fun _ _ _ h => h)
  | erased d fd g hh =>
    exact hi.of_le (by simp) (fun n => (turnOff_le d d s.lo fd n).1)
      (fun n d' h => (turnOff_le d d' s.lo fd n).2 h) (fun _ _ _ h => h)
  | absent d fd hh => exact hi

end Hbm.Turns
