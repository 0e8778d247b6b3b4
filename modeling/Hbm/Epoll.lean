import Mathlib.Data.BitVec
import Mathlib.Logic.Function.Basic

/-!
The part of Linux epoll the event loop relies on: event masks, the three control operations,
and the interest set they maintain.

Masks are tested and cleared as in C: `m & b` as a truth value and `m &= ~b`. What a kernel does
with a control operation is a class, since the properties of the event loop need different amounts
of it. `Interest` is the plain interest set.
-/

namespace Hbm.Mask

variable {w : ℕ}

/-- The truth value of `m & b`. -/
def has (m b : BitVec w) : Bool := m &&& b != 0#w

/-- `m & ~b`. -/
def clear (m b : BitVec w) : BitVec w := m &&& ~~~b

@[simp] lemma has_clear_self (m b : BitVec w) : has (clear m b) b = false := by
  have h : m &&& ~~~b &&& b = 0#w := by ext i hi; simp
  simp [has, clear, h]

lemma has_clear_of_disjoint {b c : BitVec w} (h : b &&& c = 0#w) (m : BitVec w) :
    has (clear m b) c = has m c := by
  have hm : m &&& ~~~b &&& c = m &&& c := by
    ext i hi
    have := congrArg (fun v => v[i]) h
    simp at this ⊢
    grind
  simp [has, clear, hm]

/-- Clearing sets nothing. -/
lemma has_of_has_clear {m b c : BitVec w} (h : has (clear m b) c = true) : has m c = true := by
  simp only [has, clear, bne_iff_ne, ne_eq] at h ⊢
  intro h0
  refine h ?_
  ext i hi
  have := congrArg (fun v => v[i]) h0
  simp at this ⊢
  grind

lemma has_clear_or (m b c d : BitVec w) (h : has (clear m (b ||| c)) d = true) :
    has (clear m b) d = true := by
  have e : clear m (b ||| c) = clear (clear m b) c := by
    ext i hi; simp [clear, Bool.and_assoc]
  rw [e] at h
  exact has_of_has_clear h

end Hbm.Mask

namespace Hbm.Epoll

open Hbm.Mask

/-- `sys::event`. -/
abbrev Fd := ℤ

/-- The address of an entry of the handler table. -/
abbrev Addr := ℕ

abbrev Events := BitVec 32

def EPOLLIN : Events := 0x001#32
def EPOLLOUT : Events := 0x004#32
def EPOLLET : Events := 0x80000000#32

/-- `struct epoll_event`; `none` in `ptr` is `nullptr`. -/
structure EpollEvent where
  events : Events
  ptr : Option Addr
  deriving DecidableEq

/-- `EPOLL_CTL_ADD`, `EPOLL_CTL_MOD`, `EPOLL_CTL_DEL`. -/
inductive CtlOp
  | ADD | MOD | DEL
  deriving DecidableEq

/-- The directions a handler can have: `inEvent`, `outEvent`. -/
inductive Dir
  | inp | out
  deriving DecidableEq

def Dir.bit : Dir → Events
  | .inp => EPOLLIN
  | .out => EPOLLOUT

def Dir.other : Dir → Dir
  | .inp => .out
  | .out => .inp

@[simp] lemma Dir.other_ne (d : Dir) : d.other ≠ d := by cases d <;> decide
lemma Dir.eq_or_other (d e : Dir) : e = d ∨ e = d.other := by
  cases d <;> cases e <;> simp [Dir.other]

instance (p : Dir → Prop) [DecidablePred p] : Decidable (∀ d, p d) :=
  decidable_of_iff (p .inp ∧ p .out) ⟨fun h d => by cases d <;> simp [h], fun h => ⟨h _, h _⟩⟩

lemma Dir.bit_disjoint {d e : Dir} (h : d ≠ e) : d.bit &&& e.bit = 0#32 := by
  cases d <;> cases e <;> first | exact absurd rfl h | decide

/-! The masks of the registrations: one direction, or both. -/

@[simp] lemma has_single (d e : Dir) : has (d.bit ||| EPOLLET) e.bit = decide (e = d) := by
  cases d <;> cases e <;> decide

@[simp] lemma has_single_edge (d : Dir) : has (d.bit ||| EPOLLET) EPOLLET = true := by
  cases d <;> decide

@[simp] lemma has_both (d e : Dir) :
    has (d.bit ||| EPOLLET ||| d.other.bit) e.bit = true := by
  cases d <;> cases e <;> decide

@[simp] lemma has_both_edge (d : Dir) :
    has (d.bit ||| EPOLLET ||| d.other.bit) EPOLLET = true := by
  cases d <;> decide

/-- `epoll_ctl` and `epoll_wait` of one kernel. -/
class Kernel (K : Type*) where
  /-- `epoll_ctl(op, fd, ev)`: what it leaves and what it returns. -/
  ctl : K → CtlOp → Fd → Option EpollEvent → K × ℤ
  /-- Whether `epoll_wait` may report these descriptors in this order, and what it leaves. -/
  report : K → List (Fd × EpollEvent) → Option K
  /-- What else happens to descriptors. -/
  World : Type
  world : K → World → Option K

/-- What a successful operation registers for the descriptor. -/
def CtlOp.entry : CtlOp → Option EpollEvent → Option EpollEvent
  | .ADD, ev => ev
  | .MOD, ev => ev
  | .DEL, _ => none

/-- The event of a report is a registered one: its pointer, and of the directions only
registered ones. Errors and hangups are reported unasked. -/
def Registered (ev r : EpollEvent) : Prop :=
  r.ptr = ev.ptr ∧ ∀ d : Dir, has r.events d.bit = true → has ev.events d.bit = true

instance (ev r : EpollEvent) : Decidable (Registered ev r) :=
  inferInstanceAs (Decidable (r.ptr = ev.ptr ∧
    ∀ d : Dir, has r.events d.bit = true → has ev.events d.bit = true))

/-- A kernel with an interest set: control operations it accepts change it as documented,
the others return `-1` and leave it, and reports come from it. -/
class RegKernel (K : Type*) extends Kernel K where
  reg : K → Fd → Option EpollEvent
  accepts : K → CtlOp → Fd → Bool
  ctl_ret : ∀ k op fd ev, (ctl k op fd ev).2 = if accepts k op fd then 0 else -1
  ctl_reg : ∀ k op fd ev, reg (ctl k op fd ev).1 =
    if accepts k op fd then Function.update (reg k) fd (op.entry ev) else reg k
  report_reg : ∀ {k k' rs}, report k rs = some k' → reg k' = reg k
  report_nodup : ∀ {k k' rs}, report k rs = some k' → (rs.map Prod.fst).Nodup
  report_mem : ∀ {k k' rs r}, report k rs = some k' → r ∈ rs →
    ∃ ev, reg k r.1 = some ev ∧ Registered ev r.2
  world_reg : ∀ {k k' w}, world k w = some k' → reg k' = reg k

/-- What `EEXIST` and `ENOENT` leave: `ADD` on an unregistered descriptor, `MOD` and `DEL` on a
registered one. -/
def sensible (r : Option EpollEvent) : CtlOp → Bool
  | .ADD => r.isNone
  | .MOD => r.isSome
  | .DEL => r.isSome

/-! ### An interest set that accepts every sensible operation -/

/-- The interest set and the readiness edges not yet reported; `failed` counts the control
operations that failed. -/
structure Interest where
  reg : Fd → Option EpollEvent
  edge : Fd → Events
  failed : ℕ

namespace Interest

def ctl (k : Interest) (op : CtlOp) (fd : Fd) (ev : Option EpollEvent) : Interest × ℤ :=
  if sensible (k.reg fd) op then ({ k with reg := Function.update k.reg fd (op.entry ev) }, 0)
  else ({ k with failed := k.failed + 1 }, -1)

/-- Edge triggered: a direction is reported after an edge, once. -/
def reportable (k : Interest) (r : Fd × EpollEvent) : Prop :=
  (∃ ev ∈ k.reg r.1, Registered ev r.2) ∧
    ∀ d : Dir, has r.2.events d.bit = true → has (k.edge r.1) d.bit = true

instance (k : Interest) (r : Fd × EpollEvent) : Decidable (k.reportable r) :=
  inferInstanceAs (Decidable ((∃ ev ∈ k.reg r.1, Registered ev r.2) ∧
    ∀ d : Dir, has r.2.events d.bit = true → has (k.edge r.1) d.bit = true))

/-- `MAXEVENTS`. -/
def maxEvents : ℕ := 16

/-- The edges a report leaves. -/
def consume (edge : Fd → Events) (rs : List (Fd × EpollEvent)) : Fd → Events :=
  rs.foldl (fun g r => Function.update g r.1 (clear (g r.1) r.2.events)) edge

def report (k : Interest) (rs : List (Fd × EpollEvent)) : Option Interest :=
  if rs.length ≤ maxEvents ∧ (rs.map Prod.fst).Nodup ∧ ∀ r ∈ rs, k.reportable r then
    some { k with edge := consume k.edge rs }
  else none

/-- A descriptor gets ready. -/
def arrive (k : Interest) (w : Fd × Events) : Interest :=
  { k with edge := Function.update k.edge w.1 (k.edge w.1 ||| w.2) }

end Interest

instance : RegKernel Interest where
  ctl := Interest.ctl
  report := Interest.report
  World := Fd × Events
  world := fun k w => some (k.arrive w)
  reg := Interest.reg
  accepts := fun k op fd => sensible (k.reg fd) op
  ctl_ret := by
    intro k op fd ev
    unfold Interest.ctl
    split <;> rfl
  ctl_reg := by
    intro k op fd ev
    unfold Interest.ctl
    split <;> rfl
  report_reg := by
    intro k k' rs h
    unfold Interest.report at h
    split at h
    · cases h; rfl
    · cases h
  report_nodup := by
    intro k k' rs h
    unfold Interest.report at h
    split at h
    · next hc => exact hc.2.1
    · cases h
  report_mem := by
    intro k k' rs r h hr
    unfold Interest.report at h
    split at h
    · next hc =>
      obtain ⟨ev, hev, hreg⟩ := (hc.2.2 r hr).1
      exact ⟨ev, hev, hreg⟩
    · cases h
  world_reg := by
    intro k k' w h
    cases h
    rfl

end Hbm.Epoll
