import Hbm.Turns

/-!
The dispatch of one batch: what its callbacks may do to it, and how it serves them.

A batch starts with entries of distinct registered descriptors in its slots. From then on every
callback may register and erase what it likes.
-/

namespace Hbm.Batch

open Hbm.Epoll Hbm.Handlers Hbm.Execute Hbm.Dispatch Hbm.Turns

variable {H K : Type*}

/-- The handler table agrees with the batch. -/
structure AgreesWithBatch (s : St H K) : Prop where
  entry : ∀ n < s.lo.eventCount.toNat, ∃ p e, (s.lo.events n).ptr = some p ∧
    s.lo.eventInfos.find (s.src n) = some (p, e) ∧ ∀ d, Pending s n d → (e.get d).isSome
  distinct : ∀ m n, m < s.lo.eventCount.toNat → n < s.lo.eventCount.toNat →
    s.src m = s.src n → m = n

/-- The `do` loop is entered. -/
structure Starts (s : St H K) : Prop extends AgreesWithBatch s where
  pc : s.pc = .slot 0 0 0
  log : s.log = []

/-- The steps of a dispatch: callbacks do not throw. -/
def InBatch {W : Type*} : Label H W → Prop
  | .tau => True
  | .call .. => True
  | .ret .. => True
  | .world _ => True
  | _ => False

def service : Obs H → Option (ℕ × (ℕ × Dir))
  | .invoke round n d _ _ => some (round, (n, d))
  | _ => none

/-- The callbacks the dispatch has called, newest first: the round, the slot, the direction. -/
def services (log : List (Obs H)) : List (ℕ × (ℕ × Dir)) := log.filterMap service

@[simp] lemma services_invoke (round n : ℕ) (d : Dir) (fd : Fd) (h : H) (log : List (Obs H)) :
    services (.invoke round n d fd h :: log) = (round, (n, d)) :: services log := rfl

lemma services_stored (d : Dir) (fd : Fd) (eh : Option H) (log : List (Obs H)) :
    services (stored d fd eh ++ log) = services log := by
  rcases eh with _ | h
  · rfl
  · by_cases hfd : fd = -1
    · simp [stored, hfd]
    · simp [stored, hfd, services, service, List.filterMap_cons]

/-- The history entry removed this direction of the descriptor, or its whole entry. -/
def Erases (o : Obs H) (d : Dir) (fd : Fd) : Prop :=
  match o with
  | .erase d' fd' freed _ => fd' = fd ∧ (d' = d ∨ freed = true)
  | _ => False

/-- If `a` is a callback called after `b`, then `b` did not erase it. -/
def NotErased (a b : Obs H) : Prop :=
  match a with
  | .invoke _ _ d fd _ => ¬ Erases b d fd
  | _ => True

/-! ### Nothing that was erased is called -/

structure Kept (s : St H K) : Prop where
  off : ∀ n d p, n < armed s → (s.lo.events n).ptr = some p → Pending s n d →
    ∀ o ∈ s.log, ¬ Erases o d (s.src n)
  past : s.log.Pairwise NotErased

variable {s t : St H K}

/-- Steps that erase nothing and call nothing. -/
lemma Kept.of_quiet (hs : Kept s) (new : List (Obs H)) (hlog : t.log = new ++ s.log)
    (hnew : ∀ o ∈ new, (∀ d fd, ¬ Erases o d fd) ∧ ∀ b, NotErased o b)
    (harm : armed t ≤ armed s) (hsrc : t.src = s.src)
    (hptr : ∀ n, (t.lo.events n).ptr = (s.lo.events n).ptr)
    (hpend : ∀ n d, Pending t n d → Pending s n d) : Kept t where
  off := by
    intro n d p hn hp hpd o ho
    rw [hptr] at hp
    rw [hlog, List.mem_append] at ho
    rcases ho with ho | ho
    · exact (hnew o ho).1 d _
    · rw [hsrc]
      exact hs.off n d p (by omega) hp (hpend n d hpd) o ho
  past := by
    rw [hlog, List.pairwise_append]
    refine ⟨?_, hs.past, fun a ha b _ => (hnew a ha).2 b⟩
    exact List.pairwise_of_forall_mem_list fun a ha b _ => (hnew a ha).2 b

lemma kept_tau (hk : Kept s) (hs : Safe s) (h : Tau s t) : Kept t := by
  have harm : ∀ {round n k : ℕ} {d : Dir} {p : Addr}, s.pc = .bit round n d p k →
      armed s = s.lo.eventCount.toNat := fun h => by rw [armed_def, h]; rfl
  cases h with
  | store ret eintr hpc pc hnew =>
    refine hk.of_quiet [] rfl (by simp) ?_ rfl (fun _ => rfl) (fun _ _ h => h)
    rcases hnew with ⟨rfl, -⟩ | rfl <;> simp [hpc]
  | lock hpc =>
    exact hk.of_quiet [] rfl (by simp) (by simp [hpc]) rfl (fun _ => rfl) (fun _ _ h => h)
  | stop round n k hpc hn hp =>
    exact hk.of_quiet [] rfl (by simp) (by simp) rfl (fun _ => rfl) (fun _ _ h => h)
  | enter round n k p hpc hn hp =>
    exact hk.of_quiet [] rfl (by simp) (by simp [hpc]) rfl (fun _ => rfl) (fun _ _ h => h)
  | unlock round n hpc hn =>
    exact hk.of_quiet [] rfl (by simp) (by simp) rfl (fun _ => rfl) (fun _ _ h => h)
  | again round n k hpc hn hne =>
    exact hk.of_quiet [] rfl (by simp) (by simp [hpc]) rfl (fun _ => rfl) (fun _ _ h => h)
  | skip round n d p k hpc hb =>
    exact hk.of_quiet [] rfl (by simp)
      (by rw [harm hpc, armed_def, armedAt_next]) rfl (fun _ => rfl) (fun _ _ h => h)
  | dangling round n d p k hpc hb hm =>
    exact hk.of_quiet [] rfl (by simp) (by simp) rfl (fun _ => rfl) (fun _ _ h => h)
  | empty round n d p k e hpc hb hm he =>
    exact hk.of_quiet [] rfl (by simp)
      (by rw [harm hpc, armed_def, armedAt_next]) rfl (fun _ => rfl) (fun _ _ h => h)
  | invoke round n d p k e g hpc hb hm he =>
    obtain ⟨hn, hp⟩ := hs.here round n d p k (Or.inl hpc)
    have hno := hk.off n d p hn hp hb
    refine ⟨fun m d' q hm' hq hpd o ho => ?_, List.pairwise_cons.mpr ⟨hno, hk.past⟩⟩
    rcases List.mem_cons.mp ho with rfl | ho
    · exact id
    · exact hk.off m d' q (by rw [harm hpc]; exact hm') hq hpd o ho

lemma kept_ret (hk : Kept s) {th : Thread} {r : ℤ} (h : Ret s th r t) : Kept t := by
  cases h with
  | again f rest hd hr =>
    exact hk.of_quiet [_] rfl (by simp [Erases, NotErased]) le_rfl rfl (fun _ => rfl)
      (fun _ _ h => h)
  | drained f rest hd hr =>
    exact hk.of_quiet [_, _] rfl (by simp [Erases, NotErased]) le_rfl rfl (fun _ => rfl)
      (fun _ _ h => h)
  | more round n d p k hd ht hpc hr =>
    exact hk.of_quiet [_] rfl (by simp [Erases, NotErased])
      (by simp only [armed, armedAt_next, hpc]; rfl) rfl (fun _ => rfl) (fun _ _ h => h)
  | done round n d p k hd ht hpc hr =>
    exact hk.of_quiet [_] rfl (by simp [Erases, NotErased])
      (by simp only [armed, armedAt_next, hpc]; rfl) rfl (fun m => turnOffSlot_ptr s.lo n m d)
      (fun _ _ h => has_of_turnOffSlot h)

lemma kept_call [Kernel K] (hk : Kept s) (ht : Safe t) (hr : Ready t) {th : Thread} {c : Call H}
    (h : CallStep s th c t) : Kept t := by
  cases h with
  | added d fd g a ha hr =>
    exact hk.of_quiet [_] rfl (by simp [Erases, NotErased]) (by simp) rfl
      (fun n => by simp) (fun n d' h => by simpa [Pending] using h)
  | refused d fd eh a ha hr =>
    refine hk.of_quiet (_ :: stored d fd eh) rfl (fun o ho => ?_) (by simp) rfl
      (fun n => by simp) (fun n d' h => by simpa [Pending] using h)
    rcases List.mem_cons.mp ho with rfl | ho
    · simp [Erases, NotErased]
    · obtain ⟨g, -, -, rfl⟩ := mem_stored.mp ho
      simp [Erases, NotErased]
  | erased d fd g hh =>
    refine ⟨fun n d' p hn hp hpd o ho => ?_, List.pairwise_cons.mpr ⟨fun _ _ => trivial, hk.past⟩⟩
    rcases List.mem_cons.mp ho with rfl | ho
    · rintro ⟨hfd, hcase⟩
      obtain ⟨e', hf'⟩ := ht.live n d' p hn hp hpd
      have hset := hr n d' p hn hp hpd
      simp only at hf' hfd hset
      rw [← hfd] at hf' hset
      rcases hcase with rfl | hfreed
      · rw [handler_eraseHandler_self] at hset
        cases hset
      · rw [hf'] at hfreed
        cases hfreed
    · obtain ⟨h1, h2⟩ := turnOff_le d d' s.lo fd n
      exact hk.off n d' p (by simpa using hn) (h1 ▸ hp) (h2 hpd) o ho
  | absent d fd hh => exact hk

end Hbm.Batch
