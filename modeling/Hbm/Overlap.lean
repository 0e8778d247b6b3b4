import Hbm.Construct
import Hbm.Dispatch

/-!
Which invocations of handlers are in progress at the same time.

A handler is called from two places: by the dispatch, under the mutex, and by the drain in
`addEvent` and `addOutEvent`, after the mutex is given back. From the registration on the kernel
reports the descriptor, so the dispatch need not wait for the drain. Here the calls of a drain
begin and end in steps of their own.
-/

namespace Hbm.Overlap

open Hbm.Mask Hbm.Epoll Hbm.Handlers Hbm.Execute Hbm.Dispatch Hbm.Construct Hbm.Run

/-- `begun` is false for a thread whose innermost drain is between two calls of its handler.
`current` is what the dispatch has called. -/
structure St (H K : Type*) where
  ex : Execute.St H K
  begun : Thread → Bool
  current : Option (Fd × Dir)

inductive Label (H W : Type*)
  /-- a step of the event loop in which no handler is called -/
  | ex (l : Execute.Label H W)
  /-- the innermost drain of the thread calls its handler -/
  | begins (t : Thread)
  /-- the dispatch calls a handler of the entry of `fd` -/
  | invoke (fd : Fd)

variable {H K : Type*}

def isRunning : Pc → Bool
  | .running .. => true
  | _ => false

/-- The thread on which a callback, or the application, makes the step. -/
def thread {W : Type*} : Execute.Label H W → Option Thread
  | .call t _ | .ret t _ | .throws t => some t
  | _ => none

/-- A new drain has not called its handler yet, and a drain that got more than zero will call it
again. -/
def begunAfter {W : Type*} (s : St H K) (ex : Execute.St H K) :
    Execute.Label H W → Thread → Bool
  | .call t _ =>
    Function.update s.begun t (decide ((ex.drains t).length ≤ (s.ex.drains t).length))
  | .ret t r => Function.update s.begun t (decide (r ≤ 0) || (s.ex.drains t).isEmpty)
  | _ => s.begun

def step [Kernel K] (s : St H K) : Label H (Kernel.World K) → Option (St H K)
  | .ex l =>
    if (thread l).all s.begun then
      (Execute.step s.ex l).bind fun ex =>
        if isRunning ex.pc && !isRunning s.ex.pc then none
        else some ⟨ex, begunAfter s ex l, if isRunning ex.pc then s.current else none⟩
    else none
  | .begins t =>
    if s.begun t then none else some { s with begun := Function.update s.begun t true }
  | .invoke fd =>
    match s.ex.pc with
    | .bit _ _ d p _ =>
      (Execute.step s.ex .tau).bind fun ex =>
        if isRunning ex.pc && (s.ex.lo.eventInfos.find fd).map Prod.fst == some p then
          some { s with ex, current := some (fd, d) }
        else none
    | _ => none

/-! ### Handlers in progress -/

/-- The drains of a thread. -/
def draining (s : St H K) (t : Thread) : List (Fd × Dir) :=
  (s.ex.drains t).map fun f => (f.fd, f.dir)

/-- What the dispatch on a thread has called. -/
def dispatched (s : St H K) : Thread → List (Fd × Dir)
  | .loop => s.current.toList
  | .other _ => []

/-- The handlers with an unfinished drain or a dispatched call. -/
def occupied (s : St H K) (t : Thread) : List (Fd × Dir) := draining s t ++ dispatched s t

/-- The handlers that have been called on a thread and have not returned, once for each call. -/
def inProgress (s : St H K) (t : Thread) : List (Fd × Dir) :=
  (if s.begun t then draining s t else (draining s t).tail) ++ dispatched s t

/-- No handler is in progress twice, on one thread or on two. -/
def NoOverlap (s : St H K) : Prop :=
  (∀ t, (inProgress s t).Nodup) ∧
    ∀ t t', t ≠ t' → (inProgress s t).Disjoint (inProgress s t')

/-- The dispatch of the batch will come to a direction: an event is pending in a slot before
which no stop event comes, and the entry has a handler for it. -/
def Awaits (lo : EventLoop H K) (fd : Fd) (d : Dir) : Prop :=
  ∃ (n : ℕ) (p : Addr) (e : EventsHandlers H), (n : ℤ) < lo.eventCount ∧
    (∀ m < n, (lo.events m).ptr ≠ none) ∧ (lo.events n).ptr = some p ∧
    has (lo.events n).events d.bit = true ∧ lo.eventInfos.find fd = some (p, e) ∧ e.get d ≠ none

/-- The condition on the steps. Nobody registers a direction whose handler is occupied, and when
the loop takes the mutex, nothing that awaits the dispatch is still being drained. -/
def Separate {W : Type*} (s : St H K) : Label H W → Prop
  | .ex (.call _ (.add d fd (some _) _)) => ∀ t, (fd, d) ∉ occupied s t
  | .ex .tau => s.ex.pc = .lock → ∀ fd d, Awaits s.ex.lo fd d → ∀ t, (fd, d) ∉ draining s t
  | _ => True

/-- Nothing is going on. -/
structure Idle (s : St H K) : Prop where
  pc : ∃ r, s.ex.pc = .out r
  drains : ∀ t, s.ex.drains t = []
  begun : ∀ t, s.begun t = true
  current : s.current = none

/-! ### The invariant -/

/-- Where the loop thread stands in the batch. -/
def Here (lo : EventLoop H K) : Pc → Prop
  | .slot _ n _ => ∀ m < n, (lo.events m).ptr ≠ none
  | .bit _ n _ p _ | .running _ n _ p _ =>
    (∀ m < n, (lo.events m).ptr ≠ none) ∧ (n : ℤ) < lo.eventCount ∧ (lo.events n).ptr = some p
  | _ => True

/-- What holds in every state that is reached. -/
structure Sound (s : St H K) : Prop where
  loop : s.ex.drains .loop ≠ [] → mayCall s.ex .loop = true
  current : isRunning s.ex.pc = false → s.current = none
  begun : ∀ t, s.ex.drains t = [] → s.begun t = true

/-- What the condition keeps. -/
structure Apart (s : St H K) : Prop where
  nodup : ∀ t, (occupied s t).Nodup
  disjoint : ∀ t t', t ≠ t' → (occupied s t).Disjoint (occupied s t')
  here : Here s.ex.lo s.ex.pc
  batch : s.ex.pc.locked = true → ∀ fd d, Awaits s.ex.lo fd d → ∀ i, (fd, d) ∉ draining s (.other i)

/-! ### What awaits the dispatch -/

section Awaits

variable {lo lo' : EventLoop H K} {fd fd' : Fd} {d d' : Dir}

lemma Awaits.mono (h : Awaits lo' fd d) (hc : lo'.eventCount = lo.eventCount)
    (hptr : ∀ n, (lo'.events n).ptr = (lo.events n).ptr)
    (hbit : ∀ n, has (lo'.events n).events d.bit = true → has (lo.events n).events d.bit = true)
    (hfind : ∀ p e', lo'.eventInfos.find fd = some (p, e') → e'.get d ≠ none →
      ∃ e, lo.eventInfos.find fd = some (p, e) ∧ e.get d ≠ none) : Awaits lo fd d := by
  obtain ⟨n, p, e', hn, hbefore, hp, hb, hf, he⟩ := h
  obtain ⟨e, hf', he'⟩ := hfind p e' hf he
  simp only [hptr] at hbefore hp
  exact ⟨n, p, e, hc ▸ hn, hbefore, hp, hbit n hb, hf', he'⟩

/-- A callback that has nothing left to do turns its event off. -/
lemma awaits_turnOffSlot {n : ℕ} (h : Awaits (turnOffSlot lo n d') fd d) : Awaits lo fd d :=
  h.mono rfl (fun m => turnOffSlot_ptr lo n m d') (fun _ hm => has_of_turnOffSlot hm)
    fun _ e hf he => ⟨e, hf, he⟩

variable [Kernel K]

/-- A registration adds nothing but what it registers. -/
lemma awaits_add {eh : Option H} {a : Addr} {ha : lo.eventInfos.mem a = none}
    (h : Awaits (addHandler d' lo fd' eh a ha).1 fd d) :
    (eh ≠ none ∧ fd = fd' ∧ d = d') ∨ Awaits lo fd d := by
  rcases eh with _ | x
  · exact .inr h
  by_cases hnew : fd = fd' ∧ d = d'
  · exact .inl ⟨nofun, hnew⟩
  refine .inr (h.mono (addHandler_eventCount _) (fun n => by rw [addHandler_events])
    (fun n hn => by rwa [addHandler_events] at hn) fun p e' hf he => ?_)
  by_cases hk : fd = fd'
  · subst hk
    have hd : d ≠ d' := fun hd => hnew ⟨rfl, hd⟩
    by_cases hneg : fd = -1
    · subst hneg
      rw [addHandler_neg] at hf
      exact ⟨e', hf, he⟩
    rw [find_addHandler_self d' x ha hneg] at hf
    cases hf
    rw [EventsHandlers.get_set_of_ne _ hd] at he
    -- a new entry has no handler for the other direction
    rcases hold : lo.eventInfos.find fd with _ | ⟨p, e⟩
    · simp [target, hold] at he
    · exact ⟨e, by simp [target, hold], by simpa [target, hold] using he⟩
  · rw [find_addHandler_of_ne _ hk] at hf
    exact ⟨e', hf, he⟩

lemma eraseHandler_ptr (n : ℕ) :
    ((eraseHandler d' lo fd').1.events n).ptr = (lo.events n).ptr := by
  rcases hh : handler lo.eventInfos fd' d' with _ | x
  · rw [eraseHandler_none hh]
  · obtain ⟨op, ev, q, e, infos, -, -, hr, -⟩ := eraseHandler_some hh
    rw [hr]
    exact turnOff_ptr

lemma awaits_erase (h : Awaits (eraseHandler d' lo fd').1 fd d) : Awaits lo fd d := by
  rcases hh : handler lo.eventInfos fd' d' with _ | x
  · rwa [eraseHandler_none hh] at h
  obtain ⟨op, ev, q, e, infos, hq, -, hr, -⟩ := eraseHandler_some hh
  have hev : (eraseHandler d' lo fd').1.events =
      turnOff lo.events lo.eventCount q (removedEvents d' e) := by rw [hr]
  refine h.mono eraseHandler_eventCount eraseHandler_ptr
    (fun n hn => has_of_has_turnOff (by rwa [hev] at hn)) fun p e' hf he => ?_
  by_cases hk : fd = fd'
  · subst hk
    rw [find_eraseHandler_self hh hq] at hf
    split at hf <;> cases hf
    refine ⟨e, hq, ?_⟩
    by_cases hd : d = d'
    · subst hd
      simp at he
    · rwa [EventsHandlers.get_set_of_ne _ hd] at he
  · rw [find_eraseHandler_of_ne hk] at hf
    exact ⟨e', hf, he⟩

end Awaits

/-! ### The steps -/

variable {s t : St H K} {ex : Execute.St H K} {b : Thread → Bool}

lemma Here.congr {lo lo' : EventLoop H K} {pc : Pc} (h : Here lo pc)
    (hc : lo'.eventCount = lo.eventCount)
    (hptr : ∀ n, (lo'.events n).ptr = (lo.events n).ptr) : Here lo' pc := by
  cases pc with
  | slot | bit | running => simpa only [Here, hc, hptr] using h
  | _ => trivial

/-- After a test or a callback the loop goes on in the batch. -/
lemma here_next {lo : EventLoop H K} {round n : ℕ} {d : Dir} {p : Addr}
    (h : (∀ m < n, (lo.events m).ptr ≠ none) ∧ (n : ℤ) < lo.eventCount ∧
      (lo.events n).ptr = some p) (k : ℕ) : Here lo (next round n d p k) := by
  cases d with
  | inp => exact h
  | out =>
    intro m hm
    rcases Nat.lt_or_eq_of_le (Nat.le_of_lt_succ hm) with hlt | rfl
    · exact h.1 m hlt
    · rw [h.2.2]
      nofun

lemma isRunning_next (round n : ℕ) (d : Dir) (p : Addr) (k : ℕ) :
    isRunning (next round n d p k) = false := by
  cases d <;> rfl

/-- Inside `execute` no callback of the loop thread is running. -/
lemma mayCall_of_tau (h : Tau s.ex ex) : mayCall s.ex .loop = false := by
  cases h with
  | store ret eintr hpc | lock hpc | stop _ _ _ hpc | enter _ _ _ _ hpc | unlock _ _ hpc
  | again _ _ _ hpc | skip _ _ _ _ _ hpc | dangling _ _ _ _ _ hpc
  | empty _ _ _ _ _ _ hpc | invoke _ _ _ _ _ _ _ hpc => simp [mayCall, hpc]

lemma mayCall_of_running (h : isRunning s.ex.pc = true) : mayCall s.ex .loop = true := by
  cases hpc : s.ex.pc with
  | running => simp [mayCall, hpc]
  | _ =>
    rw [hpc] at h
    cases h

/-- The loop thread has no drain while it is in the library or in the kernel. -/
lemma Sound.no_drain (hs : Sound s) (h : mayCall s.ex .loop = false) : s.ex.drains .loop = [] := by
  by_contra hne
  rw [hs.loop hne] at h
  cases h

/-- The current call stays as long as its callback runs. -/
lemma Sound.current_eq (hs : Sound s) :
    (if isRunning s.ex.pc then s.current else none) = s.current := by
  cases hr : isRunning s.ex.pc with
  | true => rfl
  | false => exact (hs.current hr).symm

/-- Fewer handlers are occupied, and the batch is where it was. -/
lemma Apart.of_sublist (hi : Apart s) (hocc : ∀ i, (occupied t i).Sublist (occupied s i))
    (hhere : Here t.ex.lo t.ex.pc)
    (hbatch : t.ex.pc.locked = true → ∀ fd d, Awaits t.ex.lo fd d →
      ∀ i, (fd, d) ∉ draining t (.other i)) : Apart t where
  nodup i := (hi.nodup i).sublist (hocc i)
  disjoint i j hij _ h h' := hi.disjoint i j hij ((hocc i).mem h) ((hocc j).mem h')
  here := hhere
  batch := hbatch

/-- The loop thread moves on, outside callbacks. -/
lemma Apart.move (hi : Apart s) (hd : ex.drains = s.ex.drains) (hhere : Here ex.lo ex.pc)
    (hbatch : ex.pc.locked = true → ∀ fd d, Awaits ex.lo fd d →
      ∀ i, (fd, d) ∉ draining s (.other i)) : Apart ⟨ex, b, none⟩ := by
  have hdr : ∀ i, draining ⟨ex, b, none⟩ i = draining s i := fun i => by simp only [draining, hd]
  refine hi.of_sublist (fun i => ?_) hhere fun hl fd d ha i => ?_
  · rw [occupied, hdr]
    exact List.Sublist.append (List.Sublist.refl _) (by cases i <;> simp [dispatched])
  · rw [hdr]
    exact hbatch hl fd d ha i

lemma apart_tau (hi : Apart s) (h : Tau s.ex ex) (hrun : isRunning ex.pc = false)
    (hlock : s.ex.pc = .lock → ∀ fd d, Awaits s.ex.lo fd d → ∀ t, (fd, d) ∉ draining s t) :
    Apart ⟨ex, b, none⟩ := by
  have hhere := hi.here
  have hbatch := hi.batch
  cases h with
  | store ret eintr hpc pc hnew =>
    rcases hnew with ⟨rfl, -⟩ | rfl
    · exact hi.move rfl trivial nofun
    · exact hi.move rfl trivial nofun
  | lock hpc =>
    exact hi.move rfl (by simp [Here]) fun _ fd d ha i => hlock hpc fd d ha (.other i)
  | stop round n k hpc hn hp => exact hi.move rfl trivial nofun
  | enter round n k p hpc hn hp =>
    rw [hpc] at hhere hbatch
    exact hi.move rfl ⟨hhere, hn, hp⟩ fun _ => hbatch rfl
  | unlock round n hpc hn => exact hi.move rfl trivial nofun
  | again round n k hpc hn hk =>
    rw [hpc] at hbatch
    exact hi.move rfl (by simp [Here]) fun _ => hbatch rfl
  | skip round n d p k hpc hb =>
    rw [hpc] at hhere hbatch
    exact hi.move rfl (here_next hhere k) fun _ => hbatch rfl
  | dangling round n d p k hpc hb hm => exact hi.move rfl trivial nofun
  | empty round n d p k e hpc hb hm he =>
    rw [hpc] at hhere hbatch
    exact hi.move rfl (here_next hhere k) fun _ => hbatch rfl
  | invoke round n d p k e g hpc hb hm he => cases hrun

/-- The dispatch calls a handler: no other thread drains what awaits the dispatch, and the loop
thread drains nothing. -/
lemma apart_invoke (hs : Sound s) (hi : Apart s) {round n : ℕ} {d : Dir} {p : Addr} {k : ℕ}
    {fd : Fd} {e : EventsHandlers H} {h : H} {log : List (Obs H)}
    (hpc : s.ex.pc = .bit round n d p k) (hb : has (s.ex.lo.events n).events d.bit = true)
    (hf : s.ex.lo.eventInfos.find fd = some (p, e)) (he : e.get d = some h) :
    Apart ⟨{ s.ex with pc := .running round n d p k, log }, b, some (fd, d)⟩ := by
  have hnil : s.ex.drains .loop = [] := hs.no_drain (by simp [mayCall, hpc])
  have hcurrent : s.current = none := hs.current (by rw [hpc]; rfl)
  have hhere := hi.here
  have hbatch := hi.batch
  rw [hpc] at hhere hbatch
  have hawaits : Awaits s.ex.lo fd d :=
    ⟨n, p, e, hhere.2.1, hhere.1, hhere.2.2, hb, hf, by rw [he]; nofun⟩
  have hloop : occupied ⟨{ s.ex with pc := .running round n d p k, log }, b, some (fd, d)⟩ .loop =
      [(fd, d)] := by simp [occupied, draining, dispatched, hnil]
  have hother : ∀ i, (fd, d) ∉ occupied s (.other i) := fun i => by
    simpa [occupied, dispatched] using hbatch rfl fd d hawaits i
  refine ⟨fun i => ?_, fun i j hij key h h' => ?_, hhere, hbatch⟩
  · cases i with
    | loop =>
      rw [hloop]
      simp
    | other i => exact hi.nodup (.other i)
  · cases i with
    | loop =>
      rw [hloop, List.mem_singleton] at h
      subst h
      cases j with
      | loop => exact hij rfl
      | other j => exact hother j h'
    | other i =>
      cases j with
      | loop =>
        rw [hloop, List.mem_singleton] at h'
        subst h'
        exact hother i h
      | other j => exact hi.disjoint (.other i) (.other j) hij h h'

/-- A drain ends. -/
lemma Apart.pop (hi : Apart s) {θ : Thread} {f : Drain H} {rest : List (Drain H)}
    (hd : s.ex.drains θ = f :: rest) {log : List (Obs H)} :
    Apart ⟨{ s.ex with drains := Function.update s.ex.drains θ rest, log }, b, s.current⟩ := by
  have hsub : ∀ i, (draining ⟨{ s.ex with drains := Function.update s.ex.drains θ rest, log }, b,
      s.current⟩ i).Sublist (draining s i) := by
    intro i
    by_cases hi : i = θ
    · subst hi
      simp only [draining, Function.update_self, hd]
      exact (List.sublist_cons_self ..).map _
    · simp only [draining, Function.update_of_ne hi]
      exact List.Sublist.refl _
  exact hi.of_sublist (fun i => (hsub i).append (by cases i <;> exact List.Sublist.refl _)) hi.here
    fun hl fd d ha i hm => hi.batch hl fd d ha i ((hsub (.other i)).mem hm)

lemma apart_ret {θ : Thread} {r : ℤ} (hs : Sound s) (hi : Apart s) (h : Ret s.ex θ r ex) :
    Apart ⟨ex, b, if isRunning ex.pc then s.current else none⟩ := by
  have hhere := hi.here
  have hbatch := hi.batch
  cases h with
  | again f rest hd hr =>
    rw [hs.current_eq]
    exact ⟨hi.nodup, hi.disjoint, hi.here, hi.batch⟩
  | drained f rest hd hr =>
    rw [hs.current_eq]
    exact hi.pop hd
  | more round n d p k hd ht hpc hr =>
    rw [hpc] at hhere hbatch
    rw [isRunning_next]
    exact hi.move rfl (here_next hhere _) fun _ => hbatch rfl
  | done round n d p k hd ht hpc hr =>
    rw [hpc] at hhere hbatch
    rw [isRunning_next]
    refine hi.move rfl ?_ fun _ fd d' ha => hbatch rfl fd d' (awaits_turnOffSlot ha)
    exact (here_next hhere k).congr rfl fun m => turnOffSlot_ptr s.ex.lo n m d

lemma apart_throw {θ : Thread} (hs : Sound s) (hi : Apart s) (h : Throw s.ex θ ex) :
    Apart ⟨ex, b, if isRunning ex.pc then s.current else none⟩ := by
  cases h with
  | drain f rest hd =>
    rw [hs.current_eq]
    exact hi.pop hd
  | caught round n d p k hd ht hpc =>
    have hhere := hi.here
    have hbatch := hi.batch
    rw [hpc] at hhere hbatch
    rw [isRunning_next]
    exact hi.move rfl (here_next hhere _) fun _ => hbatch rfl

/-- The table changes, and what then awaits the dispatch did so before or is not occupied. -/
lemma Apart.table {lo : EventLoop H K} {log : List (Obs H)} (hi : Apart s)
    (hc : lo.eventCount = s.ex.lo.eventCount)
    (hptr : ∀ n, (lo.events n).ptr = (s.ex.lo.events n).ptr)
    (hawaits : ∀ fd d, Awaits lo fd d → Awaits s.ex.lo fd d ∨ ∀ i, (fd, d) ∉ occupied s i) :
    Apart ⟨{ s.ex with lo, log }, b, s.current⟩ := by
  refine ⟨hi.nodup, hi.disjoint, hi.here.congr hc hptr, fun hl fd d ha i hm => ?_⟩
  rcases hawaits fd d ha with hold | hfree
  · exact hi.batch hl fd d hold i hm
  · exact hfree (.other i) (List.mem_append_left _ hm)

/-- A thread with a new drain. -/
def push (s : St H K) (θ : Thread) (f : Drain H) (lo : EventLoop H K) (log : List (Obs H))
    (b : Thread → Bool) : St H K :=
  ⟨{ s.ex with lo, drains := Function.update s.ex.drains θ (f :: s.ex.drains θ), log }, b,
    s.current⟩

section Push

variable {θ i : Thread} {f : Drain H} {lo : EventLoop H K} {log : List (Obs H)}

lemma occupied_push_self : occupied (push s θ f lo log b) θ = (f.fd, f.dir) :: occupied s θ := by
  simp only [occupied, draining, push, Function.update_self]
  cases θ <;> rfl

lemma draining_push_of_ne (hne : i ≠ θ) : draining (push s θ f lo log b) i = draining s i := by
  simp only [draining, push, Function.update_of_ne hne]

lemma occupied_push_of_ne (hne : i ≠ θ) : occupied (push s θ f lo log b) i = occupied s i := by
  rw [occupied, draining_push_of_ne hne]
  cases i <;> rfl

/-- A new drain. While the batch is dispatched only the loop thread can start one. -/
lemma Apart.push (hi : Apart s) (hmay : mayCall s.ex θ = true)
    (hfree : ∀ i, (f.fd, f.dir) ∉ occupied s i) : Apart (push s θ f s.ex.lo log b) := by
  refine ⟨fun i => ?_, fun i j hij key h h' => ?_, hi.here, fun hl fd d ha i hm => ?_⟩
  · by_cases hiθ : i = θ
    · subst hiθ
      rw [occupied_push_self]
      exact List.nodup_cons.mpr ⟨hfree i, hi.nodup i⟩
    · rw [occupied_push_of_ne hiθ]
      exact hi.nodup i
  · by_cases hiθ : i = θ
    · subst hiθ
      rw [occupied_push_of_ne (Ne.symm hij)] at h'
      rw [occupied_push_self] at h
      rcases List.mem_cons.mp h with rfl | h
      · exact hfree j h'
      · exact hi.disjoint i j hij h h'
    · rw [occupied_push_of_ne hiθ] at h
      by_cases hjθ : j = θ
      · subst hjθ
        rw [occupied_push_self] at h'
        rcases List.mem_cons.mp h' with rfl | h'
        · exact hfree i h
        · exact hi.disjoint i j hij h h'
      · rw [occupied_push_of_ne hjθ] at h'
        exact hi.disjoint i j hij h h'
  · have hne : .other i ≠ θ := by
      rintro rfl
      have hunlocked : s.ex.pc.locked = false := by simpa [mayCall] using hmay
      rw [show s.ex.pc.locked = true from hl] at hunlocked
      cases hunlocked
    rw [draining_push_of_ne hne] at hm
    exact hi.batch hl fd d ha i hm

end Push

variable [Kernel K]

lemma apart_call {θ : Thread} {c : Call H} (hi : Apart s) (hmay : mayCall s.ex θ = true)
    (hsep : Separate s (.ex (.call θ c) : Label H (Kernel.World K)))
    (h : CallStep s.ex θ c ex) : Apart ⟨ex, b, s.current⟩ := by
  cases h with
  | added d fd g a ha hr =>
    have htable : Apart ⟨{ s.ex with lo := (addHandler d s.ex.lo fd (some g) a ha).1 }, b,
        s.current⟩ :=
      hi.table (addHandler_eventCount _) (fun n => by rw [addHandler_events]) fun fd' d' haw => by
        rcases awaits_add haw with ⟨-, rfl, rfl⟩ | hold
        · exact .inr hsep
        · exact .inl hold
    exact htable.push (f := ⟨d, fd, g⟩) hmay hsep
  | refused d fd eh a ha hr =>
    refine hi.table (addHandler_eventCount _) (fun n => by rw [addHandler_events])
      fun fd' d' haw => ?_
    rcases awaits_add haw with ⟨hne, rfl, rfl⟩ | hold
    · obtain ⟨g, rfl⟩ := Option.ne_none_iff_exists'.mp hne
      exact .inr hsep
    · exact .inl hold
  | erased d fd g hh =>
    exact hi.table eraseHandler_eventCount (eraseHandler_ptr ·)
      fun _ _ haw => .inl (awaits_erase haw)
  | absent d fd hh => exact ⟨hi.nodup, hi.disjoint, hi.here, hi.batch⟩

lemma step_ex {l : Execute.Label H (Kernel.World K)} (h : step s (.ex l) = some t) :
    ∃ ex, Execute.step s.ex l = some ex ∧ (thread l).all s.begun = true ∧
      (isRunning ex.pc = true → isRunning s.ex.pc = true) ∧
      t = ⟨ex, begunAfter s ex l, if isRunning ex.pc then s.current else none⟩ := by
  simp only [step] at h
  split at h
  · next hb =>
    obtain ⟨ex, hex, h⟩ := Option.bind_eq_some_iff.mp h
    split at h <;> cases h
    next hrun => exact ⟨ex, hex, hb, by simpa using hrun, rfl⟩
  · cases h

lemma step_invoke {fd : Fd} (h : step s (.invoke fd) = some t) :
    ∃ round n d p k e g log, s.ex.pc = .bit round n d p k ∧
      has (s.ex.lo.events n).events d.bit = true ∧
      s.ex.lo.eventInfos.find fd = some (p, e) ∧ e.get d = some g ∧
      t = ⟨{ s.ex with pc := .running round n d p k, log }, s.begun, some (fd, d)⟩ := by
  simp only [step] at h
  split at h
  · next round n d p k hpc =>
    obtain ⟨ex, hex, h⟩ := Option.bind_eq_some_iff.mp h
    split at h <;> cases h
    next hcond =>
    obtain ⟨hrun, hkey⟩ := Bool.and_eq_true_iff.mp hcond
    have htau := stepTau_cases hex
    cases htau with
    | invoke round' n' d' p' k' e g hpc' hb hm he =>
      rw [hpc] at hpc'
      cases hpc'
      obtain ⟨⟨q, e'⟩, hf, hq⟩ := Option.map_eq_some_iff.mp (beq_iff_eq.mp hkey)
      obtain rfl : q = p := hq
      obtain rfl : e = e' := Option.some.inj (hm.symm.trans (NodeMap.find_eq_some.mp hf).2)
      exact ⟨round, n, d, q, k, e, g, _, hpc, hb, hf, he, rfl⟩
    | skip | empty => simp [isRunning_next] at hrun
    | store _ _ _ pc hnew => rcases hnew with ⟨rfl, -⟩ | rfl <;> cases hrun
    | _ => cases hrun
  · cases h

lemma mayCall_of_step {θ : Thread} {c : Call H} (h : Execute.step s.ex (.call θ c) = some ex) :
    mayCall s.ex θ = true := by
  by_contra hno
  simp [Execute.step, hno] at h

/-- The drains of a thread on which nothing is called and nothing returns stay. -/
lemma drains_of_step {l : Execute.Label H (Kernel.World K)} (h : Execute.step s.ex l = some ex)
    {θ : Thread} (hθ : thread l ≠ some θ) : ex.drains θ = s.ex.drains θ := by
  cases l with
  | execute =>
    obtain ⟨r, -, -, rfl⟩ := step_execute h
    rfl
  | fill rs =>
    obtain ⟨-, k, -, rfl⟩ := step_fill h
    rfl
  | fail eintr =>
    obtain ⟨-, rfl⟩ := step_fail h
    rfl
  | tau => cases stepTau_cases h <;> rfl
  | call θ' c =>
    have hne : θ ≠ θ' := fun heq => hθ (heq ▸ rfl)
    cases step_call h with
    | added => exact Function.update_of_ne hne _ _
    | _ => rfl
  | ret θ' r =>
    have hne : θ ≠ θ' := fun heq => hθ (heq ▸ rfl)
    cases stepRet_cases h with
    | drained => exact Function.update_of_ne hne _ _
    | _ => rfl
  | throws θ' =>
    have hne : θ ≠ θ' := fun heq => hθ (heq ▸ rfl)
    cases stepThrow_cases h with
    | drain => exact Function.update_of_ne hne _ _
    | _ => rfl
  | world w =>
    obtain ⟨k, -, rfl⟩ := step_world h
    rfl

lemma begunAfter_of_ne {l : Execute.Label H (Kernel.World K)} {θ : Thread}
    (hθ : thread l ≠ some θ) : begunAfter s ex l θ = s.begun θ := by
  cases l with
  | call θ' c | ret θ' _ =>
    have hne : θ ≠ θ' := fun heq => hθ (heq ▸ rfl)
    exact Function.update_of_ne hne _ _
  | _ => rfl

/-- A thread without drains has begun. -/
lemma begun_of_step {l : Execute.Label H (Kernel.World K)} (hb : (thread l).all s.begun = true)
    (h : Execute.step s.ex l = some ex) {θ : Thread} (hθ : thread l = some θ)
    (hnil : ex.drains θ = []) : begunAfter s ex l θ = true := by
  cases l with
  | call θ' c =>
    cases hθ
    simp [begunAfter, hnil]
  | ret θ' r =>
    cases hθ
    rw [begunAfter, Function.update_self]
    cases stepRet_cases h with
    | again f rest hd hr =>
      rw [show s.ex.drains θ = [] from hnil] at hd
      cases hd
    | drained f rest hd hr => simp [hr]
    | more round n d p k hd | done round n d p k hd => simp [hd]
  | throws θ' =>
    cases hθ
    exact hb
  | execute | fill | fail | tau | world => cases hθ

lemma loop_of_step {l : Execute.Label H (Kernel.World K)} (hs : Sound s)
    (h : Execute.step s.ex l = some ex) (hne : ex.drains .loop ≠ []) :
    mayCall ex .loop = true := by
  cases l with
  | execute =>
    obtain ⟨r, -, hnil, rfl⟩ := step_execute h
    exact absurd hnil hne
  | fill rs =>
    obtain ⟨hpc, k, -, rfl⟩ := step_fill h
    exact absurd (hs.no_drain (by simp [mayCall, hpc])) hne
  | fail eintr =>
    obtain ⟨hpc, rfl⟩ := step_fail h
    exact absurd (hs.no_drain (by simp [mayCall, hpc])) hne
  | tau =>
    have hnil := hs.no_drain (mayCall_of_tau (stepTau_cases h))
    rw [← drains_of_step h nofun] at hnil
    exact absurd hnil hne
  | call θ c =>
    have hmay := mayCall_of_step h
    cases step_call h with
    | added =>
      cases θ with
      | loop => exact hmay
      | other i => exact hs.loop hne
    | _ => exact hs.loop hne
  | ret θ r =>
    cases stepRet_cases h with
    | again => exact hs.loop hne
    | drained f rest hd hr =>
      cases θ with
      | loop => exact hs.loop (by rw [hd]; nofun)
      | other i => exact hs.loop hne
    | more round n d p k hd ht | done round n d p k hd ht => exact absurd (ht ▸ hd) hne
  | throws θ =>
    cases stepThrow_cases h with
    | drain f rest hd =>
      cases θ with
      | loop => exact hs.loop (by rw [hd]; nofun)
      | other i => exact hs.loop hne
    | caught round n d p k hd ht => exact absurd (ht ▸ hd) hne
  | world w =>
    obtain ⟨k, -, rfl⟩ := step_world h
    exact hs.loop hne

/-- Every step keeps what holds in every state. -/
lemma sound_step {l : Label H (Kernel.World K)} (hs : Sound s) (h : step s l = some t) :
    Sound t := by
  cases l with
  | ex l =>
    obtain ⟨ex, hex, hb, -, rfl⟩ := step_ex h
    refine ⟨loop_of_step hs hex, fun hr => if_neg (by simp [hr]), fun θ hnil => ?_⟩
    by_cases hθ : thread l = some θ
    · exact begun_of_step hb hex hθ hnil
    · have hold : s.ex.drains θ = [] := (drains_of_step hex hθ).symm.trans hnil
      exact (begunAfter_of_ne hθ).trans (hs.begun θ hold)
  | begins θ =>
    simp only [step] at h
    split at h <;> cases h
    refine ⟨hs.loop, hs.current, fun θ' hnil => ?_⟩
    by_cases hθ : θ' = θ
    · subst hθ
      exact Function.update_self ..
    · exact (Function.update_of_ne hθ _ _).trans (hs.begun θ' hnil)
  | invoke fd =>
    obtain ⟨round, n, d, p, k, e, g, log, hpc, -, -, -, rfl⟩ := step_invoke h
    refine ⟨fun hne => absurd (hs.no_drain ?_) hne, nofun, hs.begun⟩
    simp [mayCall, hpc]

lemma apart_ex {l : Execute.Label H (Kernel.World K)} (hs : Sound s) (hi : Apart s)
    (hsep : Separate s (.ex l : Label H (Kernel.World K))) (h : step s (.ex l) = some t) :
    Apart t := by
  obtain ⟨ex, hex, -, hrun, rfl⟩ := step_ex h
  cases l with
  | execute =>
    obtain ⟨r, hpc, hnil, rfl⟩ := step_execute hex
    exact hi.move rfl trivial nofun
  | fill rs =>
    obtain ⟨hpc, k, -, rfl⟩ := step_fill hex
    exact hi.move rfl trivial nofun
  | fail eintr =>
    obtain ⟨hpc, rfl⟩ := step_fail hex
    exact hi.move rfl trivial nofun
  | tau =>
    have htau := stepTau_cases hex
    have hstop : isRunning ex.pc = false := by
      rw [← Bool.not_eq_true]
      intro hr
      have hmay := mayCall_of_running (hrun hr)
      rw [mayCall_of_tau htau] at hmay
      cases hmay
    rw [hstop]
    exact apart_tau hi htau hstop hsep
  | call θ c =>
    have hpc : ex.pc = s.ex.pc := by cases step_call hex <;> rfl
    rw [hpc, hs.current_eq]
    exact apart_call hi (mayCall_of_step hex) hsep (step_call hex)
  | ret θ r => exact apart_ret hs hi (stepRet_cases hex)
  | throws θ => exact apart_throw hs hi (stepThrow_cases hex)
  | world w =>
    obtain ⟨k, -, rfl⟩ := step_world hex
    rw [hs.current_eq]
    exact ⟨hi.nodup, hi.disjoint, hi.here, hi.batch⟩

lemma apart_step {l : Label H (Kernel.World K)} (hs : Sound s) (hi : Apart s)
    (hsep : Separate s l) (h : step s l = some t) : Apart t := by
  cases l with
  | ex l => exact apart_ex hs hi hsep h
  | begins θ =>
    simp only [step] at h
    split at h <;> cases h
    exact ⟨hi.nodup, hi.disjoint, hi.here, hi.batch⟩
  | invoke fd =>
    obtain ⟨round, n, d, p, k, e, g, log, hpc, hb, hf, he, rfl⟩ := step_invoke h
    exact apart_invoke hs hi hpc hb hf he

omit [Kernel K] in
/-- What is in progress is occupied. -/
lemma Apart.noOverlap (hi : Apart s) : NoOverlap s := by
  have hsub : ∀ i, (inProgress s i).Sublist (occupied s i) := by
    intro i
    unfold inProgress
    split
    · exact List.Sublist.refl _
    · exact (List.tail_sublist _).append (List.Sublist.refl _)
  exact ⟨fun i => (hi.nodup i).sublist (hsub i),
    fun i j hij _ h h' => hi.disjoint i j hij ((hsub i).mem h) ((hsub j).mem h')⟩

omit [Kernel K] in
lemma sound_idle (hs : Idle s) : Sound s :=
  ⟨fun hne => absurd (hs.drains _) hne, fun _ => hs.current, fun i _ => hs.begun i⟩

omit [Kernel K] in
lemma apart_idle (hs : Idle s) : Apart s := by
  obtain ⟨r, hpc⟩ := hs.pc
  have hocc : ∀ i, occupied s i = [] := by
    intro i
    cases i <;> simp [occupied, draining, dispatched, hs.drains, hs.current]
  refine ⟨fun i => ?_, fun i j _ k h => ?_, ?_, ?_⟩
  · rw [hocc]
    exact List.nodup_nil
  · rw [hocc] at h
    cases h
  · rw [hpc]
    trivial
  · rw [hpc]
    nofun

/-- **No handler runs twice at the same time**, in every state of every run in which no direction
is registered while its handler is occupied, and in which whatever awaits the dispatch when the
loop takes the mutex has been drained. -/
theorem no_overlap {ls : List (Label H (Kernel.World K))} (hs : Idle s)
    (hsep : Meets step Separate s ls) : Always step NoOverlap s ls := by
  rintro ks t ⟨ms, rfl⟩ h
  have hi : Sound t ∧ Apart t :=
    run_inv_of_meets (I := fun u => Sound u ∧ Apart u)
      (fun _ _ _ hi hl h => ⟨sound_step hi.1 h, apart_step hi.1 hi.2 hl h⟩)
      ⟨sound_idle hs, apart_idle hs⟩ hsep.of_append h
  exact hi.2.noOverlap

/-- Nothing is going on in a new event loop. -/
def start : St ℕ Interest := ⟨fresh 5, fun _ => true, none⟩

lemma idle_start : Idle start := ⟨⟨none, rfl⟩, fun _ => rfl, fun _ => rfl, rfl⟩

/-- Another thread registers descriptor 3, and the handler is called. -/
def registering : List (Label ℕ (Kernel.World Interest)) :=
  [.ex (.call (.other 0) (.add .inp 3 (some 10) 1)), .begins (.other 0)]

/-- Data arrives, and the loop dispatches it. -/
def dispatching : List (Label ℕ (Kernel.World Interest)) :=
  [.ex (.world (3, EPOLLIN)), .ex .execute, .ex (.fill [(3, ⟨EPOLLIN, some 1⟩)]), .ex .tau,
    .ex .tau, .ex .tau, .invoke 3]

/-- The drain ends before the loop dispatches. -/
def drainedFirst : List (Label ℕ (Kernel.World Interest)) :=
  registering ++ .ex (.ret (.other 0) 0) :: dispatching

omit [Kernel K] in
lemma separate_of_drained {W : Type*} {s : St H K} (h : ∀ t, s.ex.drains t = []) :
    Separate s (.ex .tau : Label H W) := by
  intro _ fd d _ t
  simp [draining, h]

lemma meets_drainedFirst : Meets step Separate start drainedFirst := by
  refine meets_step (fun t => ?_) rfl (meets_step trivial rfl (meets_step trivial rfl
    (meets_step trivial rfl (meets_step trivial rfl (meets_step trivial rfl ?_)))))
  · cases t <;> exact List.not_mem_nil
  have hdrains : ∀ t, Function.update (Function.update (fun _ => ([] : List (Drain ℕ)))
      (Thread.other 0) [⟨.inp, 3, 10⟩]) (Thread.other 0) [] t = [] := by
    intro t
    by_cases ht : t = .other 0
    · rw [ht, Function.update_self]
    · rw [Function.update_of_ne ht, Function.update_of_ne ht]
  refine meets_step (separate_of_drained hdrains) rfl (meets_step (separate_of_drained hdrains) rfl
    (meets_step (separate_of_drained hdrains) rfl (meets_step trivial rfl trivial)))

theorem no_overlap_drainedFirst : (∃ t, run step start drainedFirst = some t ∧
    inProgress t .loop = [(3, .inp)]) ∧ Always step NoOverlap start drainedFirst :=
  ⟨⟨_, rfl, rfl⟩, no_overlap idle_start meets_drainedFirst⟩

/-- Data that arrives during the drain is dispatched to the handler that the drain has called. -/
theorem entered_twice : ∃ t, run step start (registering ++ dispatching) = some t ∧
    inProgress t (.other 0) = [(3, .inp)] ∧ inProgress t .loop = [(3, .inp)] ∧ ¬ NoOverlap t := by
  refine ⟨_, rfl, rfl, rfl, fun h => ?_⟩
  have hdisjoint := h.2 (.other 0) .loop nofun
  exact hdisjoint (a := (3, .inp)) List.mem_cons_self List.mem_cons_self

end Hbm.Overlap
