import Hbm.Execute

/-!
The dispatch never touches a freed entry, as long as every erasure reaches the slots of the
batch.

A slot is armed when the batch in `m_events` still has to be dispatched. The invariant is that
an armed slot in which an event is pending points to the entry of the descriptor it was
reported for. An erasure keeps it by turning events off, but only in the first `m_eventCount`
slots.
-/

namespace Hbm.Dispatch

open Hbm.Mask Hbm.Epoll Hbm.Handlers Hbm.Execute

variable {H K : Type*}

/-- The number of slots that are still to be dispatched. -/
@[simp] def armedAt (eventCount : ℤ) : Pc → ℕ
  | .filled ret _ => ret.toNat
  | .lock => eventCount.toNat
  | .slot .. => eventCount.toNat
  | .bit .. => eventCount.toNat
  | .running .. => eventCount.toNat
  | .out _ => 0
  | .wait => 0
  | .dangling => 0

abbrev armed (s : St H K) : ℕ := armedAt s.lo.eventCount s.pc

@[simp] lemma armed_def (s : St H K) : armed s = armedAt s.lo.eventCount s.pc := rfl

/-- The event of direction `d` in slot `n` is pending. -/
def Pending (s : St H K) (n : ℕ) (d : Dir) : Prop := has (s.lo.events n).events d.bit = true

structure Safe (s : St H K) : Prop where
  alive : s.pc ≠ .dangling
  inj : ∀ m n p, m < armed s → n < armed s →
    (s.lo.events m).ptr = some p → (s.lo.events n).ptr = some p → m = n
  live : ∀ n d p, n < armed s → (s.lo.events n).ptr = some p → Pending s n d →
    ∃ e, s.lo.eventInfos.find (s.src n) = some (p, e)
  here : ∀ round n d p k, s.pc = .bit round n d p k ∨ s.pc = .running round n d p k →
    n < armed s ∧ (s.lo.events n).ptr = some p

variable {s t : St H K}

/-- Steps that only move the loop thread and turn events off. -/
lemma Safe.of_le (hs : Safe s) (hpc : t.pc ≠ .dangling) (harm : armed t ≤ armed s)
    (hsrc : t.src = s.src) (hinfos : t.lo.eventInfos = s.lo.eventInfos)
    (hptr : ∀ n, (t.lo.events n).ptr = (s.lo.events n).ptr)
    (hpend : ∀ n d, Pending t n d → Pending s n d)
    (here : ∀ round n d p k, t.pc = .bit round n d p k ∨ t.pc = .running round n d p k →
      n < armed t ∧ (s.lo.events n).ptr = some p) : Safe t where
  alive := hpc
  inj := by
    intro m n p hm hn h1 h2
    rw [hptr] at h1 h2
    exact hs.inj m n p (by omega) (by omega) h1 h2
  live := by
    intro n d p hn h1 h2
    rw [hptr] at h1
    rw [hsrc, hinfos]
    exact hs.live n d p (by omega) h1 (hpend n d h2)
  here := by
    intro round n d p k h
    rw [hptr]
    exact here round n d p k h

lemma next_ne_dangling (round n : ℕ) (d : Dir) (p : Addr) (k : ℕ) :
    next round n d p k ≠ .dangling := by cases d <;> simp [next]

@[simp] lemma armedAt_next (c : ℤ) (round n : ℕ) (d : Dir) (p : Addr) (k : ℕ) :
    armedAt c (next round n d p k) = c.toNat := by cases d <;> rfl

/-- After a test or a callback the loop is at the same slot or at the head of the next one. -/
lemma next_here {round n : ℕ} {d : Dir} {p : Addr} {k : ℕ} {round' n' : ℕ} {d' : Dir} {p' : Addr}
    {k' : ℕ} (h : next round n d p k = .bit round' n' d' p' k' ∨
      next round n d p k = .running round' n' d' p' k') : n' = n ∧ p' = p := by
  cases d <;> simp [next] at h
  exact ⟨h.2.1.symm, h.2.2.2.1.symm⟩

/-- A step on to what comes after a test or a callback. -/
lemma Safe.to_next (hs : Safe s) {round n : ℕ} {d : Dir} {p : Addr} {k k' : ℕ}
    (hpc : s.pc = .bit round n d p k ∨ s.pc = .running round n d p k)
    (ht : t.pc = next round n d p k') (hc : t.lo.eventCount = s.lo.eventCount)
    (hsrc : t.src = s.src) (hinfos : t.lo.eventInfos = s.lo.eventInfos)
    (hptr : ∀ n, (t.lo.events n).ptr = (s.lo.events n).ptr)
    (hpend : ∀ n d, Pending t n d → Pending s n d) : Safe t := by
  have harm : armed s = s.lo.eventCount.toNat := by rcases hpc with h | h <;> simp [h]
  have harm' : armed t = s.lo.eventCount.toNat := by rw [armed_def, ht, hc, armedAt_next]
  obtain ⟨hn, hp⟩ := hs.here round n d p k hpc
  have halive : t.pc ≠ .dangling := by rw [ht]; exact next_ne_dangling _ _ _ _ _
  refine hs.of_le halive (by omega) hsrc hinfos hptr hpend ?_
  intro round' n' d' p' k' h
  rw [ht] at h
  obtain ⟨rfl, rfl⟩ := next_here h
  exact ⟨by omega, hp⟩

lemma safe_tau (hs : Safe s) (h : Tau s t) : Safe t := by
  cases h with
  | store ret eintr hpc pc hnew =>
    rcases hnew with ⟨rfl, -⟩ | rfl
    · exact hs.of_le (by simp) (by simp) rfl rfl (fun _ => rfl) (fun _ _ h => h) (by simp)
    · exact hs.of_le (by simp) (by simp [hpc]) rfl rfl (fun _ => rfl) (fun _ _ h => h) (by simp)
  | lock hpc =>
    exact hs.of_le (by simp) (by simp [hpc]) rfl rfl (fun _ => rfl) (fun _ _ h => h) (by simp)
  | stop round n k hpc hn hp =>
    exact hs.of_le (by simp) (by simp) rfl rfl (fun _ => rfl) (fun _ _ h => h) (by simp)
  | enter round n k p hpc hn hp =>
    refine hs.of_le (by simp) (by simp [hpc]) rfl rfl (fun _ => rfl) (fun _ _ h => h) ?_
    intro round' n' d' p' k' h
    simp only [Pc.bit.injEq, reduceCtorEq, or_false] at h
    obtain ⟨-, rfl, -, rfl, -⟩ := h
    exact ⟨by simp only [armed, armedAt]; omega, hp⟩
  | unlock round n hpc hn =>
    exact hs.of_le (by simp) (by simp) rfl rfl (fun _ => rfl) (fun _ _ h => h) (by simp)
  | again round n k hpc hn hk =>
    exact hs.of_le (by simp) (by simp [hpc]) rfl rfl (fun _ => rfl) (fun _ _ h => h) (by simp)
  | skip round n d p k hpc hb =>
    exact hs.to_next (Or.inl hpc) rfl rfl rfl rfl (fun _ => rfl) (fun _ _ h => h)
  | dangling round n d p k hpc hb hm =>
    -- the pointer of an armed slot leads to the entry of its descriptor
    obtain ⟨hn, hp⟩ := hs.here round n d p k (Or.inl hpc)
    obtain ⟨e, hf⟩ := hs.live n d p hn hp hb
    rw [(NodeMap.find_eq_some.mp hf).2] at hm
    cases hm
  | empty round n d p k e hpc hb hm he =>
    exact hs.to_next (Or.inl hpc) rfl rfl rfl rfl (fun _ => rfl) (fun _ _ h => h)
  | invoke round n d p k e g hpc hb hm he =>
    obtain ⟨hn, hp⟩ := hs.here round n d p k (Or.inl hpc)
    refine hs.of_le (by simp) (by simp [hpc]) rfl rfl (fun _ => rfl) (fun _ _ h => h) ?_
    intro round' n' d' p' k' h
    simp only [Pc.running.injEq, reduceCtorEq, false_or] at h
    obtain ⟨-, rfl, -, rfl, -⟩ := h
    exact ⟨by simpa [hpc] using hn, hp⟩

lemma turnOffSlot_ptr (l : EventLoop H K) (n m : ℕ) (d : Dir) :
    ((turnOffSlot l n d).events m).ptr = (l.events m).ptr := by
  by_cases h : m = n
  · subst h; simp [turnOffSlot]
  · simp [turnOffSlot, Function.update_of_ne h]

lemma has_of_turnOffSlot {l : EventLoop H K} {n m : ℕ} {d : Dir} {b : Events}
    (h : has ((turnOffSlot l n d).events m).events b = true) :
    has (l.events m).events b = true := by
  by_cases hm : m = n
  · subst hm
    simp only [turnOffSlot, Function.update_self] at h
    exact has_of_has_clear h
  · simpa [turnOffSlot, Function.update_of_ne hm] using h

lemma safe_ret (hs : Safe s) {th : Thread} {r : ℤ} (h : Ret s th r t) : Safe t := by
  cases h with
  | again f rest hd hr =>
    exact hs.of_le hs.alive le_rfl rfl rfl (fun _ => rfl) (fun _ _ h => h) hs.here
  | drained f rest hd hr =>
    exact hs.of_le hs.alive le_rfl rfl rfl (fun _ => rfl) (fun _ _ h => h) hs.here
  | more round n d p k hd ht hpc hr =>
    exact hs.to_next (Or.inr hpc) rfl rfl rfl rfl (fun _ => rfl) (fun _ _ h => h)
  | done round n d p k hd ht hpc hr =>
    exact hs.to_next (Or.inr hpc) rfl rfl rfl rfl (fun m => turnOffSlot_ptr s.lo n m d)
      (fun _ _ h => has_of_turnOffSlot h)

lemma safe_throw (hs : Safe s) {th : Thread} (h : Throw s th t) : Safe t := by
  cases h with
  | drain f rest hd =>
    exact hs.of_le hs.alive le_rfl rfl rfl (fun _ => rfl) (fun _ _ h => h) hs.here
  | caught round n d p k hd ht hpc =>
    exact hs.to_next (Or.inr hpc) rfl rfl rfl rfl (fun _ => rfl) (fun _ _ h => h)

/-! ### The operations -/

section Calls

variable [Kernel K]

/-- A registration moves no entry and leaves the batch alone. -/
lemma safe_add (hs : Safe s) {d : Dir} {fd : Fd} (eh : Option H) {a : Addr}
    (ha : s.lo.eventInfos.mem a = none) (hlo : t.lo = (addHandler d s.lo fd eh a ha).1)
    (hpc : t.pc = s.pc) (hsrc : t.src = s.src) : Safe t := by
  have hev : t.lo.events = s.lo.events := by rw [hlo, addHandler_events]
  have hc : t.lo.eventCount = s.lo.eventCount := by rw [hlo, addHandler_eventCount]
  have harm : armed t = armed s := by rw [armed_def, hc, hpc, armed_def]
  refine ⟨by rw [hpc]; exact hs.alive, ?_, ?_, ?_⟩
  · rw [hev, harm]; exact hs.inj
  · intro n d' p hn hp hpend
    rw [hev] at hp
    rw [harm] at hn
    have hold : Pending s n d' := by rw [Pending, ← hev]; exact hpend
    obtain ⟨e, hf⟩ := hs.live n d' p hn hp hold
    rw [hsrc, hlo]
    exact find_addHandler_grows eh hf
  · rw [hev, harm, hpc]; exact hs.here

/-- The directions an erasure turns off. -/
lemma has_removedEvents (d d' : Dir) (e : EventsHandlers H) :
    has (removedEvents d e) d'.bit = true ↔ d' = d ∨ e.get d.other = none := by
  unfold removedEvents
  rcases e.get d.other with _ | g
  · cases d' <;> simp <;> decide
  · cases d <;> cases d' <;> simp [Dir.bit] <;> decide

lemma has_clear_removedEvents {m : Events} {d d' : Dir} {e : EventsHandlers H}
    (h : has (clear m (removedEvents d e)) d'.bit = true) :
    has (removedEvents d e) d'.bit = false := by
  unfold removedEvents at h ⊢
  split at h
  · next ho =>
    rw [if_pos ho]
    have hne : d' ≠ d := by rintro rfl; simp at h
    cases d <;> cases d' <;> first | exact absurd rfl hne | decide
  · exfalso
    cases d'
    · have := has_clear_or m EPOLLIN EPOLLOUT Dir.inp.bit h
      simp [Dir.bit] at this
    · rw [BitVec.or_comm] at h
      have := has_clear_or m EPOLLOUT EPOLLIN Dir.out.bit h
      simp [Dir.bit] at this

/-- An erasure that frees an entry reaches the slot of the batch that points to it. -/
def Reaches (s : St H K) : Call H → Prop
  | .add .. => True
  | .erase d fd => ∀ n d' p e, n < armed s → s.lo.eventInfos.find fd = some (p, e) →
      e.get d ≠ none → e.get d.other = none → (s.lo.events n).ptr = some p → Pending s n d' →
      n < s.lo.eventCount.toNat

omit [Kernel K] in
/-- With every slot below the count, every erasure reaches the slots it has to. -/
lemma reaches_of_armed (h : armed s ≤ s.lo.eventCount.toNat) (c : Call H) : Reaches s c := by
  cases c with
  | add => trivial
  | erase d fd => intro n d' p e hn _ _ _ _ _; omega

omit [Kernel K] in
/-- Below the count nothing stays pending that the erasure removes. -/
lemma erased_off (hs : Safe s) {d d' : Dir} {p : Addr} {e : EventsHandlers H} {n : ℕ}
    (hn : n < armed s) (hlt : n < s.lo.eventCount.toNat) (hp : (s.lo.events n).ptr = some p)
    (hpend :
      has (turnOff s.lo.events s.lo.eventCount p (removedEvents d e) n).events d'.bit = true) :
    has (removedEvents d e) d'.bit = false := by
  have hfirst : ∀ k < n, (s.lo.events k).ptr ≠ some p := by
    intro k hk hkp
    have := hs.inj k n p (by omega) hn hkp hp
    omega
  rw [turnOff_first hlt hp hfirst] at hpend
  exact has_clear_removedEvents hpend

lemma safe_erase (hs : Safe s) {d : Dir} {fd : Fd} (hr : Reaches s (.erase d fd))
    (hlo : t.lo = (eraseHandler d s.lo fd).1) (hpc : t.pc = s.pc) (hsrc : t.src = s.src) :
    Safe t := by
  rcases hh : handler s.lo.eventInfos fd d with _ | h
  · rw [eraseHandler_none hh] at hlo
    have harm : armed t = armed s := by rw [armed_def, hlo, hpc, armed_def]
    refine hs.of_le (by rw [hpc]; exact hs.alive) harm.le hsrc (by rw [hlo])
      (fun n => by rw [hlo]) (fun n d' hpend => by rwa [Pending, hlo] at hpend) ?_
    rw [hpc, harm]
    exact hs.here
  · obtain ⟨op, ev, p, e, infos, hf, he, hres, -⟩ := eraseHandler_some hh
    have hinfos : t.lo.eventInfos = infos := by rw [hlo, hres]
    have hself := find_eraseHandler_self hh hf
    rw [hres] at hlo hself
    have harm : armed t = armed s := by rw [armed_def, hlo, hpc, armed_def]
    have hptr : ∀ n, (t.lo.events n).ptr = (s.lo.events n).ptr := by
      intro n; rw [hlo]; exact turnOff_ptr
    refine ⟨by rw [hpc]; exact hs.alive, ?_, ?_, ?_⟩
    · intro m n q hm hn h1 h2
      rw [hptr] at h1 h2
      rw [harm] at hm hn
      exact hs.inj m n q hm hn h1 h2
    · intro n d' q hn hq hpend
      rw [hptr] at hq
      rw [harm] at hn
      rw [Pending, hlo] at hpend
      have hold := has_of_has_turnOff hpend
      obtain ⟨e', hf'⟩ := hs.live n d' q hn hq hold
      rw [hsrc, hinfos]
      by_cases hk : s.src n = fd
      · rw [hk, hf] at hf'
        cases hf'
        rw [hk, hself]
        by_cases ho : (e.get d.other).isSome = true
        · exact ⟨_, if_pos ho⟩
        · -- the entry is freed: its slot is reached, and everything in it is off
          have ho' : e.get d.other = none := by simpa using ho
          have hlt := hr n d' p e hn hf (by simp [he]) ho' hq hold
          have hoff := erased_off hs hn hlt hq hpend
          rw [← Bool.not_eq_true, has_removedEvents] at hoff
          exact absurd (Or.inr ho') hoff
      · have hfk := find_eraseHandler_of_ne (d := d) (l := s.lo) hk
        rw [hres] at hfk
        exact ⟨e', hfk.trans hf'⟩
    · intro round n d' q k h
      rw [hpc] at h
      rw [hptr, harm]
      exact hs.here round n d' q k h

/-- **One call.** Whoever calls an operation, from wherever: the batch stays safe if the
erasure reaches the slot of an entry it frees. -/
theorem safe_call (hs : Safe s) {th : Thread} {c : Call H} (hr : Reaches s c)
    (h : CallStep s th c t) : Safe t := by
  cases h with
  | added d fd g a ha hr' => exact safe_add hs (some g) ha rfl rfl rfl
  | refused d fd eh a ha hr' => exact safe_add hs eh ha rfl rfl rfl
  | erased d fd g hh => exact safe_erase hs hr rfl rfl rfl
  | absent d fd hh => exact hs

end Calls

end Hbm.Dispatch
