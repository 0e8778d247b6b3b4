import Hbm.Closing
import Hbm.Run

/-!
One thread disconnects a socket while another one builds a socket on a new descriptor.

`disconnect` closes the descriptor first and takes it out of the event loop afterwards. In
between the number is free, and a socket built on it shares the entry of the closed one.
-/

namespace Hbm.Disconnect

open Hbm.Epoll Hbm.Handlers Hbm.Registration Hbm.Descriptors Hbm.Closing Hbm.Run

/-- Where `disconnect` stands. -/
inductive APc
  | close | eraseEvent | eraseOutEvent | forget | done
  deriving DecidableEq

/-- Where the other thread stands. -/
inductive BPc
  | accept | setDataCb | done
  deriving DecidableEq

/-- `event` is `m_event` of the socket that is disconnected, `fdB` that of the new one. The
last two fields record where `disconnect` stood at the two steps of the other thread. -/
structure St (H : Type*) where
  lo : EventLoop H Files
  a : APc
  event : Fd
  b : BPc
  fdB : Fd
  acceptAt : APc
  setAt : APc

/-- Which thread takes its next step; `addr` is where a new entry would be allocated. -/
inductive Label
  | a
  | b (addr : Addr)

variable {H : Type*}

def stepA (s : St H) : Option (St H) :=
  match s.a with
  | .close =>
    if s.event = -1 then some { s with a := .forget }
    else some { s with
      lo := { s.lo with kernel := s.lo.kernel.close s.event }
      a := .eraseEvent }
  | .eraseEvent => some { s with lo := (eraseEvent s.lo s.event).1, a := .eraseOutEvent }
  | .eraseOutEvent => some { s with lo := (eraseOutEvent s.lo s.event).1, a := .forget }
  | .forget => some { s with event := -1, a := .done }
  | .done => none

def stepB (cb : H) (s : St H) (addr : Addr) : Option (St H) :=
  match s.b with
  | .accept =>
    some { s with
      lo := { s.lo with kernel := s.lo.kernel.socket.1 }
      fdB := s.lo.kernel.socket.2
      b := .setDataCb
      acceptAt := s.a }
  | .setDataCb =>
    if ha : s.lo.eventInfos.mem addr = none then
      some { s with
        lo := (addEvent s.lo s.fdB (some cb) addr ha).1
        b := .done
        setAt := s.a }
    else none
  | .done => none

def step (cb : H) (s : St H) : Label → Option (St H)
  | .a => stepA s
  | .b addr => stepB cb s addr

/-- The socket that is disconnected is open, the new one not yet, and the table is in step with
the interest set. -/
structure Starts (stopFd : Fd) (s : St H) : Prop where
  a : s.a = .close
  b : s.b = .accept
  inStep : InStep stopFd s.lo
  stop : s.lo.kernel.isOpen stopFd = true
  event : s.lo.kernel.isOpen s.event = true
  ne : s.event ≠ stopFd

/-- The new socket is registered, and of the old one nothing is left. -/
def Intact (cb : H) (fdA : Fd) (t : St H) : Prop :=
  HasOnly t.lo t.fdB cb ∧ (t.fdB ≠ fdA → Gone t.lo fdA)

/-- The new descriptor is given out before the close or is a lower number, or the new socket is
registered after both erasures, or after the first one when there is nothing for the second. -/
def Harmless (s t : St H) : Prop :=
  t.acceptAt = .close ∨ (∃ n : ℕ, n < s.event ∧ s.lo.kernel.isOpen n = false) ∨
    t.setAt = .forget ∨ t.setAt = .done ∨
    t.setAt = .eraseOutEvent ∧ handler s.lo.eventInfos s.event .out = none

/-! ### Before the new socket is registered -/

/-- The entry and the registration of the old descriptor while `disconnect` goes on; `x` is the
entry it started with. -/
def Phase (x : Option (Addr × EventsHandlers H)) (l : EventLoop H Files) (fd : Fd) : APc → Prop
  | .close => l.eventInfos.find fd = x
  | .eraseEvent => l.eventInfos.find fd = x ∧ RegKernel.reg l.kernel fd = none
  | .eraseOutEvent => l.eventInfos.find fd = without .inp x ∧ RegKernel.reg l.kernel fd = none
  | .forget => Gone l fd
  | .done => Gone l fd

/-- Every number below the old descriptor is taken. -/
def Lowest (s : St H) : Prop := ¬ ∃ n : ℕ, n < s.event ∧ s.lo.kernel.isOpen n = false

/-- The new descriptor has the old number if it was given out after the close and no lower
number was free. -/
structure Accepted (s₀ s : St H) : Prop where
  shared : s.fdB = s₀.event ↔ s.acceptAt ≠ .close ∧ Lowest s₀
  closed : s.acceptAt ≠ .close → s.a ≠ .close
  fresh : s.fdB ≠ s₀.event → s₀.lo.kernel.isOpen s.fdB = false

structure Before (s₀ s : St H) : Prop where
  event : s.a ≠ .done → s.event = s₀.event
  phase : Phase (s₀.lo.eventInfos.find s₀.event) s.lo s₀.event s.a
  other : ∀ fd ≠ s₀.event, s.lo.eventInfos.find fd = s₀.lo.eventInfos.find fd ∧
    RegKernel.reg s.lo.kernel fd = RegKernel.reg s₀.lo.kernel fd
  opened : s.b = .accept → ∀ fd, s.lo.kernel.isOpen fd = true ↔
    s₀.lo.kernel.isOpen fd = true ∧ (fd = s₀.event → s.a = .close)
  accepted : s.b ≠ .accept → s.lo.kernel.isOpen s.fdB = true ∧ Accepted s₀ s

variable {s₀ s t : St H} {stopFd : Fd} {cb : H}

lemma Starts.nonneg (hs : Starts stopFd s₀) : 0 ≤ s₀.event :=
  (decide_eq_true_eq.mp hs.event).1

lemma Starts.before (hs : Starts stopFd s₀) : Before s₀ s₀ where
  event := fun _ => rfl
  phase := by rw [hs.a]; rfl
  other := fun _ _ => ⟨rfl, rfl⟩
  opened := fun _ fd => by simp [hs.a]
  accepted := fun h => absurd hs.b h

/-- The erasures of `disconnect` go from one phase to the next. -/
lemma phase_eraseEvent {x : Option (Addr × EventsHandlers H)} {l : EventLoop H Files} {fd : Fd}
    (h : Phase x l fd .eraseEvent) : Phase x (eraseEvent l fd).1 fd .eraseOutEvent := by
  obtain ⟨hf, hr⟩ := h
  refine ⟨by rw [eraseEvent, find_eraseHandler, hf], ?_⟩
  rw [eraseEvent, reg_eraseHandler_unregistered hr, hr]

lemma phase_eraseOutEvent {x : Option (Addr × EventsHandlers H)} {ev : Option EpollEvent}
    {l : EventLoop H Files} {fd : Fd} (hx : Agrees x ev) (h : Phase x l fd .eraseOutEvent) :
    Phase x (eraseOutEvent l fd).1 fd .forget := by
  obtain ⟨hf, hr⟩ := h
  refine ⟨by rw [eraseOutEvent, find_eraseHandler, hf, without_without hx], ?_⟩
  rw [eraseOutEvent, reg_eraseHandler_unregistered hr, hr]

lemma Accepted.of_a (h : Accepted s₀ s) (hB : t.fdB = s.fdB) (hacc : t.acceptAt = s.acceptAt)
    (ha : t.a ≠ .close) : Accepted s₀ t where
  shared := by rw [hB, hacc]; exact h.shared
  closed := fun _ => ha
  fresh := by rw [hB]; exact h.fresh

lemma before_a (hs : Starts stopFd s₀) (hb : Before s₀ s) (h : stepA s = some t) :
    Before s₀ t := by
  have hag := hs.inStep s₀.event hs.ne
  unfold stepA at h
  split at h
  · next hpc =>
    have hev := hb.event (by rw [hpc]; decide)
    have hne : s.event ≠ -1 := by
      have h0 := hs.nonneg
      rintro h1
      rw [← hev, h1] at h0
      exact absurd h0 (by decide)
    rw [if_neg hne] at h
    cases h
    have hph : s.lo.eventInfos.find s₀.event = s₀.lo.eventInfos.find s₀.event := by
      have := hb.phase
      rwa [hpc] at this
    refine ⟨fun _ => hev, ⟨hph, ?_⟩, fun fd hfd => ?_, fun hB fd => ?_, fun hB => ?_⟩
    · rw [hev]
      exact close_reg_self
    · obtain ⟨h1, h2⟩ := hb.other fd hfd
      exact ⟨h1, (close_reg_of_ne (by rw [hev]; exact hfd)).trans h2⟩
    · simp only [close_isOpen, hb.opened hB fd, hev, hpc]
      constructor
      · rintro ⟨h1, h2, -⟩
        exact ⟨h2, fun h => absurd h h1⟩
      · rintro ⟨h1, h2⟩
        exact ⟨fun h => absurd (h2 h) (by decide), h1, fun _ => trivial⟩
    · -- what was given out before the close is another descriptor
      obtain ⟨ho, hacc⟩ := hb.accepted hB
      have hne' : s.fdB ≠ s₀.event := fun h => hacc.closed (hacc.shared.mp h).1 hpc
      exact ⟨close_isOpen.mpr ⟨by rw [hev]; exact hne', ho⟩, hacc.of_a rfl rfl (by simp)⟩
  · next hpc =>
    have hev := hb.event (by rw [hpc]; decide)
    cases h
    have hph := hb.phase
    rw [hpc] at hph
    refine ⟨fun _ => hev, by rw [hev]; exact phase_eraseEvent hph, fun fd hfd => ?_,
      fun hB fd => ?_, fun hB => ?_⟩
    · obtain ⟨h1, h2⟩ := hb.other fd hfd
      refine ⟨(find_eraseHandler_of_ne (by rw [hev]; exact hfd)).trans h1, ?_⟩
      rw [eraseEvent, reg_eraseHandler_unregistered (by rw [hev]; exact hph.2), h2]
    · rw [eraseEvent, isOpen_eraseHandler, hb.opened hB fd, hpc]
      simp
    · obtain ⟨ho, hacc⟩ := hb.accepted hB
      exact ⟨by rw [eraseEvent, isOpen_eraseHandler]; exact ho, hacc.of_a rfl rfl (by simp)⟩
  · next hpc =>
    have hev := hb.event (by rw [hpc]; decide)
    cases h
    have hph := hb.phase
    rw [hpc] at hph
    refine ⟨fun _ => hev, by rw [hev]; exact phase_eraseOutEvent hag hph, fun fd hfd => ?_,
      fun hB fd => ?_, fun hB => ?_⟩
    · obtain ⟨h1, h2⟩ := hb.other fd hfd
      refine ⟨(find_eraseHandler_of_ne (by rw [hev]; exact hfd)).trans h1, ?_⟩
      rw [eraseOutEvent, reg_eraseHandler_unregistered (by rw [hev]; exact hph.2), h2]
    · rw [eraseOutEvent, isOpen_eraseHandler, hb.opened hB fd, hpc]
      simp
    · obtain ⟨ho, hacc⟩ := hb.accepted hB
      exact ⟨by rw [eraseOutEvent, isOpen_eraseHandler]; exact ho, hacc.of_a rfl rfl (by simp)⟩
  · next hpc =>
    cases h
    have hph := hb.phase
    rw [hpc] at hph
    refine ⟨fun h => absurd rfl h, hph, hb.other, fun hB fd => ?_, fun hB => ?_⟩
    · rw [hb.opened hB fd, hpc]
      simp
    · obtain ⟨ho, hacc⟩ := hb.accepted hB
      exact ⟨ho, hacc.of_a rfl rfl (by simp)⟩
  · cases h

/-- Which number the new descriptor gets. -/
lemma accepted_accept (hs : Starts stopFd s₀) (hb : Before s₀ s) (hB : s.b = .accept) :
    (s.lo.kernel.socket.2 = s₀.event ↔ s.a ≠ .close ∧ Lowest s₀) ∧
      (s.lo.kernel.socket.2 ≠ s₀.event → s₀.lo.kernel.isOpen s.lo.kernel.socket.2 = false) := by
  have hopen := hb.opened hB
  have hfree := socket_free (k := s.lo.kernel)
  have hnew : ∀ fd ≠ s₀.event, s.lo.kernel.isOpen fd = false ↔ s₀.lo.kernel.isOpen fd = false := by
    intro fd hfd
    rw [← Bool.not_eq_true, ← Bool.not_eq_true, hopen fd]
    simp [hfd]
  refine ⟨⟨fun heq => ⟨fun hc => ?_, ?_⟩, ?_⟩, fun hne => (hnew _ hne).mp hfree⟩
  · rw [heq] at hfree
    rw [(hopen _).mpr ⟨hs.event, fun _ => hc⟩] at hfree
    cases hfree
  · rintro ⟨n, hlt, hn⟩
    have := socket_le ((hnew n (ne_of_lt hlt)).mpr hn)
    rw [heq] at this
    exact absurd hlt (not_lt.mpr this)
  · rintro ⟨hc, hlow⟩
    have hev : s.lo.kernel.isOpen s₀.event = false := by
      rw [← Bool.not_eq_true, hopen]
      exact fun h => hc (h.2 rfl)
    have hcast : ((s₀.event.toNat : ℕ) : ℤ) = s₀.event := Int.toNat_of_nonneg hs.nonneg
    have hle : s.lo.kernel.socket.2 ≤ s₀.event := by
      rw [← hcast] at hev ⊢
      exact socket_le hev
    by_contra hne
    exact hlow ⟨_, lt_of_le_of_ne hle hne, (hnew _ hne).mp hfree⟩

lemma before_accept (hs : Starts stopFd s₀) (hb : Before s₀ s) (hB : s.b = .accept) :
    Before s₀ { s with
      lo := { s.lo with kernel := s.lo.kernel.socket.1 }
      fdB := s.lo.kernel.socket.2
      b := .setDataCb
      acceptAt := s.a } := by
  obtain ⟨h1, h2⟩ := accepted_accept hs hb hB
  refine ⟨hb.event, ?_, hb.other, fun h => ?_, fun _ => ⟨?_, ⟨h1, id, h2⟩⟩⟩
  · have hph := hb.phase
    rcases hpc : s.a <;> rw [hpc] at hph <;> exact hph
  · cases h
  · exact socket_isOpen.mpr (Or.inl rfl)

/-! ### After -/

/-- What becomes of the new socket when it shares the number, by where it was registered. -/
def Shared (cb : H) (s₀ s : St H) : Prop :=
  match s.setAt with
  | .close => False
  | .eraseEvent => s.a = .eraseEvent ∨ s.a ≠ .close ∧ s.a ≠ .eraseEvent ∧
      handler s.lo.eventInfos s₀.event .inp = none
  | .eraseOutEvent => s.a ≠ .close ∧ s.a ≠ .eraseEvent ∧
      if handler s₀.lo.eventInfos s₀.event .out = none then HasOnly s.lo s₀.event cb
      else RegKernel.reg s.lo.kernel s₀.event = none
  | .forget => (s.a = .forget ∨ s.a = .done) ∧ HasOnly s.lo s₀.event cb
  | .done => (s.a = .forget ∨ s.a = .done) ∧ HasOnly s.lo s₀.event cb

structure After (cb : H) (s₀ s : St H) : Prop where
  event : s.a ≠ .done → s.event = s₀.event
  accepted : Accepted s₀ s
  apart : s.fdB ≠ s₀.event → HasOnly s.lo s.fdB cb ∧
    Phase (s₀.lo.eventInfos.find s₀.event) s.lo s₀.event s.a
  shared : s.fdB = s₀.event → Shared cb s₀ s

/-- A descriptor that no number was given out for has no entry. -/
lemma Starts.gone (hs : Starts stopFd s₀) {fd : Fd} (h : s₀.lo.kernel.isOpen fd = false) :
    Gone s₀.lo fd := by
  have hr := reg_of_not_isOpen h
  have hne : fd ≠ stopFd := by
    rintro rfl
    rw [hs.stop] at h
    cases h
  have hag := (hs.inStep fd hne).isSome
  have hr' : RegKernel.reg s₀.lo.kernel fd = none := hr
  rw [hr'] at hag
  exact ⟨by simpa using hag, hr'⟩

lemma shared_add (hs : Starts stopFd s₀) (hb : Before s₀ s) (hB : s.b = .setDataCb)
    (heq : s.fdB = s₀.event) {addr : Addr} (ha : s.lo.eventInfos.mem addr = none) :
    Shared cb s₀ { s with
      lo := (addEvent s.lo s.fdB (some cb) addr ha).1
      b := .done
      setAt := s.a } := by
  obtain ⟨hopen, hacc⟩ := hb.accepted (by rw [hB]; decide)
  have hclosed := hacc.closed (hacc.shared.mp heq).1
  have hph := hb.phase
  rcases hpc : s.a <;> rw [hpc] at hph <;> simp only [Shared]
  · exact hclosed hpc
  · exact Or.inl trivial
  · refine ⟨by decide, by decide, ?_⟩
    obtain ⟨hf, hr⟩ := hph
    rw [heq] at hopen ⊢
    rcases hx : s₀.lo.eventInfos.find s₀.event with _ | ⟨p, ⟨i, o⟩⟩
    · rw [if_pos (by simp [handler, hx])]
      exact hasOnly_add ⟨by rw [hf, hx]; rfl, hr⟩ hopen
    · rcases o with _ | o
      · rw [if_pos (by simp [handler, hx, EventsHandlers.get])]
        have hag := hs.inStep s₀.event hs.ne
        refine hasOnly_add ⟨?_, hr⟩ hopen
        rw [hf, hx]
        rw [hx] at hag
        rcases hreg : RegKernel.reg s₀.lo.kernel s₀.event with _ | ev
        · rw [hreg] at hag
          exact absurd hag id
        · rw [hreg] at hag
          obtain ⟨d, hd⟩ := Matches.used hag
          rcases i with _ | i
          · cases d <;> simp [EventsHandlers.get] at hd
          · simp [without, EventsHandlers.get, Dir.other]
      · rw [if_neg (by simp [handler, hx, EventsHandlers.get])]
        have hsome : ∃ y, s.lo.eventInfos.find s₀.event = some y := by
          rw [hf, hx]
          rcases i with _ | i
          · exact ⟨_, rfl⟩
          · exact ⟨_, rfl⟩
        obtain ⟨y, hy⟩ := hsome
        rw [reg_add_unregistered hy hr, hr]
  · exact ⟨Or.inl trivial, by rw [heq] at hopen ⊢; exact hasOnly_add hph hopen⟩
  · exact ⟨Or.inr trivial, by rw [heq] at hopen ⊢; exact hasOnly_add hph hopen⟩

lemma after_add (hs : Starts stopFd s₀) (hb : Before s₀ s) (hB : s.b = .setDataCb) {addr : Addr}
    (ha : s.lo.eventInfos.mem addr = none) :
    After cb s₀ { s with
      lo := (addEvent s.lo s.fdB (some cb) addr ha).1
      b := .done
      setAt := s.a } := by
  obtain ⟨hopen, hacc⟩ := hb.accepted (by rw [hB]; decide)
  refine ⟨hb.event, ⟨hacc.shared, hacc.closed, hacc.fresh⟩, fun hne => ?_,
    fun heq => shared_add hs hb hB heq ha⟩
  obtain ⟨h1, h2⟩ := hb.other s.fdB hne
  obtain ⟨g1, g2⟩ := hs.gone (hacc.fresh hne)
  refine ⟨hasOnly_add ⟨h1.trans g1, h2.trans g2⟩ hopen, ?_⟩
  have hfind : (addHandler .inp s.lo s.fdB (some cb) addr ha).1.eventInfos.find s₀.event =
      s.lo.eventInfos.find s₀.event := find_addHandler_of_ne _ hne.symm
  have hreg : RegKernel.reg (addHandler .inp s.lo s.fdB (some cb) addr ha).1.kernel s₀.event =
      RegKernel.reg s.lo.kernel s₀.event := reg_add_of_ne hne.symm
  have hph := hb.phase
  rcases hpc : s.a <;> rw [hpc] at hph <;> simp only [Phase, Gone, addEvent] at hph ⊢ <;>
    rw [hfind]
  · exact hph
  all_goals rw [hreg]; exact hph

/-- What the rest of `disconnect` does when the new socket shares the number. -/
lemma shared_a (hsh : Shared cb s₀ s)
    (hev : s.a ≠ .done → s.event = s₀.event) (hc : s.a ≠ .close) (h : stepA s = some t) :
    Shared cb s₀ t := by
  have hset : t.setAt = s.setAt := by
    unfold stepA at h
    repeat' split at h
    all_goals cases h
    all_goals rfl
  unfold Shared at hsh ⊢
  rw [hset]
  unfold stepA at h
  split at h
  · next hpc => exact absurd hpc hc
  · next hpc =>
    have hev := hev (by rw [hpc]; decide)
    cases h
    rcases hat : s.setAt <;> rw [hat] at hsh <;> simp only [hpc] at hsh ⊢
    · -- the first erasure takes the new handler
      refine Or.inr ⟨by decide, by decide, ?_⟩
      rw [hev]
      exact handler_eraseHandler_self
    all_goals simp at hsh
  · next hpc =>
    have hev := hev (by rw [hpc]; decide)
    cases h
    rcases hat : s.setAt <;> rw [hat] at hsh <;> simp only [hpc] at hsh ⊢
    · refine Or.inr ⟨by decide, by decide, ?_⟩
      rcases hsh with hsh | ⟨-, -, hsh⟩
      · cases hsh
      · rw [hev, eraseOutEvent, handler_eraseHandler_of_ne (by simp), hsh]
    · refine ⟨by decide, by decide, ?_⟩
      obtain ⟨-, -, hsh⟩ := hsh
      split at hsh
      · next ho => rw [if_pos ho, hev, hsh.eraseOutEvent_eq]; exact hsh
      · next ho => rw [if_neg ho, hev, eraseOutEvent, reg_eraseHandler_unregistered hsh, hsh]
    all_goals simp at hsh
  · next hpc =>
    cases h
    rcases hat : s.setAt <;> rw [hat] at hsh <;> simp only [hpc] at hsh ⊢
    · rcases hsh with hsh | ⟨-, -, hsh⟩
      · cases hsh
      · exact Or.inr ⟨by decide, by decide, hsh⟩
    · exact ⟨by decide, by decide, hsh.2.2⟩
    · exact ⟨Or.inr trivial, hsh.2⟩
    · exact ⟨Or.inr trivial, hsh.2⟩
  · cases h

lemma apart_a (hs : Starts stopFd s₀) (hne : s.fdB ≠ s₀.event)
    (hap : HasOnly s.lo s.fdB cb ∧ Phase (s₀.lo.eventInfos.find s₀.event) s.lo s₀.event s.a)
    (hev : s.a ≠ .done → s.event = s₀.event) (h : stepA s = some t) :
    HasOnly t.lo s.fdB cb ∧ Phase (s₀.lo.eventInfos.find s₀.event) t.lo s₀.event t.a := by
  have hag := hs.inStep s₀.event hs.ne
  obtain ⟨ho, hph⟩ := hap
  unfold stepA at h
  split at h
  · next hpc =>
    have hev := hev (by rw [hpc]; decide)
    rw [hpc] at hph
    split at h
    · next hneg =>
      have h0 := hs.nonneg
      rw [← hev, hneg] at h0
      exact absurd h0 (by decide)
    · cases h
      refine ⟨ho.of_other rfl ?_, hph, ?_⟩
      · rw [hev]
        exact close_reg_of_ne hne
      · rw [hev]
        exact close_reg_self
  · next hpc =>
    have hev := hev (by rw [hpc]; decide)
    rw [hpc] at hph
    cases h
    rw [hev]
    refine ⟨ho.of_other (find_eraseHandler_of_ne hne) ?_, phase_eraseEvent hph⟩
    rw [eraseEvent, reg_eraseHandler_unregistered hph.2]
  · next hpc =>
    have hev := hev (by rw [hpc]; decide)
    rw [hpc] at hph
    cases h
    rw [hev]
    refine ⟨ho.of_other (find_eraseHandler_of_ne hne) ?_, phase_eraseOutEvent hag hph⟩
    rw [eraseOutEvent, reg_eraseHandler_unregistered hph.2]
  · next hpc =>
    rw [hpc] at hph
    cases h
    exact ⟨ho, hph⟩
  · cases h

lemma stepA_frame (h : stepA s = some t) : t.b = s.b ∧ t.fdB = s.fdB ∧ t.acceptAt = s.acceptAt ∧
    t.a ≠ .close ∧ (t.a ≠ .done → t.event = s.event ∧ s.a ≠ .done) := by
  unfold stepA at h
  repeat' split at h
  all_goals cases h
  all_goals simp_all

lemma after_a (hs : Starts stopFd s₀) (hb : After cb s₀ s) (h : stepA s = some t) :
    After cb s₀ t := by
  obtain ⟨-, hB, hacc, hc, hev⟩ := stepA_frame h
  refine ⟨fun hd => ?_, hb.accepted.of_a hB hacc hc, fun hne => ?_, fun heq => ?_⟩
  · obtain ⟨h1, h2⟩ := hev hd
    rw [h1, hb.event h2]
  · rw [hB] at hne ⊢
    exact apart_a hs hne (hb.apart hne) hb.event h
  · rw [hB] at heq
    have hcl := hb.accepted.closed (hb.accepted.shared.mp heq).1
    exact shared_a (hb.shared heq) hb.event hcl h

/-! ### Every interleaving -/

def Inv (cb : H) (s₀ s : St H) : Prop :=
  s.b ≠ .done ∧ Before s₀ s ∨ s.b = .done ∧ After cb s₀ s

lemma inv_step (hs : Starts stopFd s₀) {l : Label} (hi : Inv cb s₀ s)
    (h : step cb s l = some t) : Inv cb s₀ t := by
  cases l with
  | a =>
    have hB := (stepA_frame h).1
    rcases hi with ⟨hd, hb⟩ | ⟨hd, hb⟩
    · exact Or.inl ⟨by rw [hB]; exact hd, before_a hs hb h⟩
    · exact Or.inr ⟨by rw [hB]; exact hd, after_a hs hb h⟩
  | b addr =>
    simp only [step, stepB] at h
    split at h
    · next hB =>
      cases h
      rcases hi with ⟨hd, hb⟩ | ⟨hd, -⟩
      · exact Or.inl ⟨by simp, before_accept hs hb hB⟩
      · rw [hB] at hd
        cases hd
    · next hB =>
      split at h
      · next ha =>
        cases h
        rcases hi with ⟨hd, hb⟩ | ⟨hd, -⟩
        · exact Or.inr ⟨rfl, after_add hs hb hB ha⟩
        · rw [hB] at hd
          cases hd
      · cases h
    · cases h

/-- With a shared number, the new socket is registered if it was registered late enough. -/
lemma shared_iff (hsh : Shared cb s t) (hA : t.a = .done) (hacc : t.acceptAt ≠ .close)
    (hlow : Lowest s) : HasOnly t.lo s.event cb ↔ Harmless s t := by
  have hlow' : ¬ ∃ n : ℕ, n < s.event ∧ s.lo.kernel.isOpen n = false := hlow
  unfold Harmless
  unfold Shared at hsh
  rcases hat : t.setAt <;> rw [hat] at hsh <;> simp only [hA] at hsh
  · rcases hsh with hsh | ⟨-, -, hsh⟩
    · cases hsh
    · constructor
      · intro hh
        rw [hh.handler_inp] at hsh
        cases hsh
      · intro hh
        simp [hacc, hlow'] at hh
  · obtain ⟨-, -, hsh⟩ := hsh
    split at hsh
    · next ho => exact ⟨fun _ => by simp [ho], fun _ => hsh⟩
    · next ho =>
      constructor
      · rintro ⟨p, -, hr⟩
        rw [hsh] at hr
        cases hr
      · intro hh
        simp [hacc, hlow', ho] at hh
  · exact ⟨fun _ => by simp, fun _ => hsh.2⟩
  · exact ⟨fun _ => by simp, fun _ => hsh.2⟩

/-- **Disconnecting one socket while another one is built.** When both are done, the new socket is
registered and nothing is left of the old one if and only if the interleaving is harmless. -/
theorem intact_iff {ls : List Label} (hs : Starts stopFd s) (h : run (step cb) s ls = some t)
    (hA : t.a = .done) (hB : t.b = .done) : Intact cb s.event t ↔ Harmless s t := by
  have hi : Inv cb s t := run_inv (fun _ _ _ hi h => inv_step hs hi h)
    (Or.inl ⟨by rw [hs.b]; decide, hs.before⟩) h
  obtain ⟨-, hb⟩ := hi.resolve_left fun h => h.1 hB
  by_cases heq : t.fdB = s.event
  · obtain ⟨hacc, hlow⟩ := hb.accepted.shared.mp heq
    rw [← shared_iff (hb.shared heq) hA hacc hlow, Intact, heq]
    exact ⟨fun h => h.1, fun h => ⟨h, fun hne => absurd rfl hne⟩⟩
  · obtain ⟨ho, hph⟩ := hb.apart heq
    rw [hA] at hph
    refine ⟨fun _ => ?_, fun _ => ⟨ho, fun _ => hph⟩⟩
    have hne := hb.accepted.shared.not.mp heq
    unfold Harmless
    by_cases hacc : t.acceptAt = .close
    · exact Or.inl hacc
    · refine Or.inr (Or.inl ?_)
      by_contra hlow
      exact hne ⟨hacc, hlow⟩

/-- The stop descriptor is 0, and the socket on descriptor 1 has no callbacks. -/
def connected : St ℕ where
  lo := {
    events := fun _ => ⟨0, none⟩
    eventCount := 0
    eventInfos := .empty
    kernel := (Files.none.socket.1.ctl .ADD 0 (some ⟨EPOLLIN ||| EPOLLET, none⟩)).1.socket.1 }
  a := .close
  event := 1
  b := .accept
  fdB := -1
  acceptAt := .close
  setAt := .close

lemma starts_connected : Starts 0 connected where
  a := rfl
  b := rfl
  inStep := by
    intro fd hfd
    have hr : RegKernel.reg connected.lo.kernel fd = none := Function.update_of_ne hfd _ _
    rw [hr]
    trivial
  stop := by decide
  event := by decide
  ne := by decide

theorem intact_iff_late : ∃ t, run (step 7) connected [.a, .a, .a, .b 1, .b 1, .a] = some t ∧
    t.fdB = 1 ∧ (Intact 7 1 t ↔ Harmless connected t) :=
  ⟨_, rfl, rfl, intact_iff starts_connected
    (show run (step 7) connected [.a, .a, .a, .b 1, .b 1, .a] = some _ from rfl) rfl rfl⟩

/-- Registered before the erasures, the new socket loses its registration. -/
theorem erased_with_old : ¬ ∀ (ls : List Label) (t : St ℕ), run (step 7) connected ls = some t →
    t.a = .done → t.b = .done → Intact 7 1 t := by
  intro h
  obtain ⟨p, hf, -⟩ := (h [.a, .b 1, .b 1, .a, .a, .a] _ rfl rfl rfl).1
  cases hf

end Hbm.Disconnect
