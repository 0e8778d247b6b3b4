import Hbm.SelfErase

/-!
The connections that a server accepts in one dispatch.

`process` takes one connection off the queue and makes a socket of it. The constructor of the
socket throws if an option cannot be set. What is not constructed is not destroyed either, so
nobody closes the descriptor. `process` is called again after a connection that went well, and
after an exception only if another callback of the batch keeps the event loop going.
-/

namespace Hbm.Accepting

open Hbm.Mask Hbm.Epoll Hbm.Execute

/-! ### The constructor of the socket -/

/-- `ss_family`. -/
inductive Family
  | INET | INET6 | UNIX
  deriving DecidableEq

inductive SockOpt
  | TCP_NODELAY | TCP_KEEPIDLE | TCP_KEEPINTVL | TCP_KEEPCNT | SO_KEEPALIVE
  deriving DecidableEq

/-- What the kernel answers to the calls for one descriptor; `none` is an error. -/
structure Answers where
  fcntl : Bool
  getsockname : Option Family
  setsockopt : SockOpt → Bool

/-- The options `setSocketOptions` sets, in their order. -/
def Family.options (family : Family) : List SockOpt :=
  if family = .INET ∨ family = .INET6 then
    [.TCP_NODELAY, .TCP_KEEPIDLE, .TCP_KEEPINTVL, .TCP_KEEPCNT, .SO_KEEPALIVE]
  else [.SO_KEEPALIVE]

/-- The first option that cannot be set ends it. -/
def setSocketOptions (k : Answers) : ℤ :=
  match k.getsockname with
  | none => -1
  | some family => if family.options.all k.setsockopt then 0 else -1

/-- `SocketNonblocking(int fd, sys::EventLoop&)` comes to its end; else it throws. -/
def construct (fd : ℤ) (k : Answers) : Bool :=
  if fd = -1 then false
  else if !k.fcntl then false
  else if setSocketOptions k < 0 then false
  else true

/-! ### The dispatch -/

/-- A result of `accept`: a connection, or an error that takes its turn, such as `ECONNABORTED`. -/
inductive Accept
  | connection (fd : ℕ) (k : Answers) (acceptCb : Outcome)
  | error

inductive Obs
  | accepted (fd : ℕ)
  | handed (fd : ℕ)
  | closed (fd : ℕ)
  deriving DecidableEq

/-- `TcpServer::process`: how it ends, and what becomes of a descriptor. Nothing is found in an
empty queue. -/
def process : Option Accept → Outcome × List Obs
  | none | some .error => (SelfErase.process (-1) (.ret 0), [])
  | some (.connection fd k acceptCb) =>
    if construct fd k then (SelfErase.process fd acceptCb, [.accepted fd, .handed fd])
    else (SelfErase.process fd .throws, [.accepted fd])

/-- Where `process` is called from. -/
inductive Context
  /-- a batch of `execute`; in round `n` another callback has more to do if `others n` -/
  | execute (others : ℕ → Bool)
  /-- the drain of `addEvent` in `start` -/
  | drain

/-- Whether `process` is called again after its call in round `n`. -/
def Context.again (c : Context) (n : ℕ) : Outcome → Bool
  | .ret r => decide (0 < r)
  | .throws =>
    match c with
    | .execute others => others n
    | .drain => false

/-- The calls of `process` from round `n` on, and what they leave in the queue. -/
def dispatch (c : Context) (n : ℕ) : List Accept → List (List Obs) × List Accept
  | [] => ([(process none).2], [])
  | a :: queue =>
    let r := process (some a)
    if c.again n r.1 then
      let d := dispatch c (n + 1) queue
      (r.2 :: d.1, d.2)
    else ([r.2], queue)

/-- What a call of `process` has accepted was handed over once, or closed. -/
def Settled (log : List Obs) : Prop :=
  ∀ fd, .accepted fd ∈ log → log.count (.handed fd) = 1 ∨ .closed fd ∈ log

/-- No connection is waiting. -/
def Over (queue : List Accept) : Prop := ∀ fd k acceptCb, .connection fd k acceptCb ∉ queue

/-- Every accepted descriptor is handed over or closed, and no connection is left. -/
structure Serves (c : Context) (n : ℕ) (queue : List Accept) : Prop where
  settled : ∀ log ∈ (dispatch c n queue).1, Settled log
  noneLeft : Over (dispatch c n queue).2

/-- The socket can be configured. -/
def Answers.Configures (k : Answers) : Prop :=
  k.fcntl = true ∧ ∃ family, k.getsockname = some family ∧
    ∀ o ∈ family.options, k.setsockopt o = true

/-- The condition on the results: every descriptor can be configured, and with connections waiting
behind it, no `accept` fails and no accept callback throws, unless another callback of the batch
keeps the loop going. -/
def Fine (c : Context) (n : ℕ) : List Accept → Prop
  | [] => True
  | .error :: queue => Over queue
  | .connection _ k acceptCb :: queue =>
    k.Configures ∧ (acceptCb = .throws → c.again n .throws = true ∨ Over queue) ∧
      Fine c (n + 1) queue

/-! ### One call -/

lemma setSocketOptions_iff (k : Answers) : setSocketOptions k < 0 ↔
    ¬ ∃ family, k.getsockname = some family ∧ ∀ o ∈ family.options, k.setsockopt o = true := by
  unfold setSocketOptions
  cases k.getsockname with
  | none => simp
  | some family =>
    have hopt : (∃ f, some family = some f ∧ ∀ o ∈ f.options, k.setsockopt o = true) ↔
        family.options.all k.setsockopt = true := by
      simp [List.all_eq_true]
    rw [hopt]
    by_cases hall : family.options.all k.setsockopt = true <;> simp [hall]

lemma construct_iff (fd : ℕ) (k : Answers) : construct fd k = true ↔ k.Configures := by
  have hfd : ¬ (fd : ℤ) = -1 := by omega
  have hopt := setSocketOptions_iff k
  unfold construct Answers.Configures
  rw [if_neg hfd]
  cases k.fcntl with
  | false => simp
  | true =>
    by_cases hneg : setSocketOptions k < 0
    · simpa [hneg] using hopt.mp hneg
    · simpa [hneg, true_and] using fun h => hneg (hopt.mpr h)

variable {c : Context} {n fd : ℕ} {k : Answers} {acceptCb : Outcome} {queue : List Accept}

variable (fd acceptCb) in
/-- A socket that is constructed is handed over. -/
lemma process_configured (hk : k.Configures) :
    process (some (.connection fd k acceptCb)) =
      (match acceptCb with
        | .ret _ => .ret 1
        | .throws => .throws, [.accepted fd, .handed fd]) := by
  have hfd : ¬ (fd : ℤ) = -1 := by omega
  rw [process, if_pos ((construct_iff fd k).mpr hk)]
  cases acceptCb <;> simp only [SelfErase.process, if_neg hfd]

/-- The descriptor of one that is not is in nobody's hands. -/
lemma process_failed (hk : ¬ k.Configures) :
    process (some (.connection fd k acceptCb)) = (.throws, [.accepted fd]) := by
  have hfd : ¬ (fd : ℤ) = -1 := by omega
  rw [process, if_neg fun h => hk ((construct_iff fd k).mp h)]
  simp only [SelfErase.process, if_neg hfd]

lemma over_nil : Over [] := fun _ _ _ => List.not_mem_nil

/-- Nothing was accepted. -/
lemma settled_nil : Settled [] := fun _ h => absurd h List.not_mem_nil

lemma settled_handed (fd : ℕ) : Settled [.accepted fd, .handed fd] := by
  intro g hg
  obtain rfl : g = fd := by simpa using hg
  exact .inl (by simp)

lemma not_settled_leaked (fd : ℕ) : ¬ Settled [.accepted fd] := by
  intro h
  rcases h fd List.mem_cons_self with hcount | hclosed
  · simp at hcount
  · simp at hclosed

/-! ### The calls in the event loop -/

section EventLoop

variable {H K : Type*} {s t : St H K} {o : Outcome}

/-- The callback that runs on the thread ends. -/
def ended (s : St H K) (th : Thread) : Outcome → Option (St H K)
  | .ret r => stepRet s th r
  | .throws => stepThrow s th

/-- In `execute` the callback is called again if its bit is left and there is another round, because
it is counted in `eventsLeft` or another callback is. -/
lemma again_execute {round i eventsLeft : ℕ} {d : Dir} {p : Addr} (hd : s.drains .loop = [])
    (hpc : s.pc = .running round i d p eventsLeft)
    (hbit : has (s.lo.events i).events d.bit = true) (h : ended s .loop o = some t) :
    ∃ counted, t.pc = next round i d p (eventsLeft + counted) ∧ ∀ others : ℕ → ℕ,
      (Context.execute fun n => decide (0 < others n)).again round o =
        (has (t.lo.events i).events d.bit && decide (0 < others round + counted)) := by
  cases o with
  | ret r =>
    cases stepRet_cases h with
    | again f rest hd' | drained f rest hd' => simp [hd] at hd'
    | more round' i' d' p' k hd' ht hpc' hr =>
      rw [hpc] at hpc'
      cases hpc'
      exact ⟨1, rfl, fun others => by simp [Context.again, hr, hbit]⟩
    | done round' i' d' p' k hd' ht hpc' hr =>
      rw [hpc] at hpc'
      cases hpc'
      refine ⟨0, rfl, fun others => ?_⟩
      simp [Context.again, turnOffSlot, Int.not_lt.mpr hr]
  | throws =>
    cases stepThrow_cases h with
    | drain f rest hd' => simp [hd] at hd'
    | caught round' i' d' p' k hd' ht hpc' =>
      rw [hpc] at hpc'
      cases hpc'
      exact ⟨0, rfl, fun others => by simp [Context.again, hbit]⟩

/-- The drain of `addEvent` calls it again as long as it is there. -/
lemma again_drain {th : Thread} {f : Drain H} {rest : List (Drain H)}
    (hd : s.drains th = f :: rest) (h : ended s th o = some t) (n : ℕ) :
    Context.drain.again n o = true ↔ t.drains th = f :: rest := by
  cases o with
  | ret r =>
    cases stepRet_cases h with
    | again f' rest' hd' hr => simp [Context.again, hr, hd]
    | drained f' rest' hd' hr =>
      rw [hd] at hd'
      cases hd'
      simp [Context.again, Int.not_lt.mpr hr]
    | more _ _ _ _ _ hd' | done _ _ _ _ _ hd' => simp [hd] at hd'
  | throws =>
    cases stepThrow_cases h with
    | drain f' rest' hd' =>
      rw [hd] at hd'
      cases hd'
      simp [Context.again]
    | caught _ _ _ _ _ hd' => simp [hd] at hd'

end EventLoop

/-! ### The whole dispatch -/

/-- The loop calls `process` again. -/
lemma serves_again {a : Accept} (ha : c.again n (process (some a)).1 = true) :
    Serves c n (a :: queue) ↔ Settled (process (some a)).2 ∧ Serves c (n + 1) queue := by
  have hd : dispatch c n (a :: queue) = ((process (some a)).2 :: (dispatch c (n + 1) queue).1,
      (dispatch c (n + 1) queue).2) := by
    simp only [dispatch, ha, if_true]
  constructor
  · rintro ⟨hlogs, hover⟩
    rw [hd] at hlogs hover
    obtain ⟨hlog, hlogs⟩ := List.forall_mem_cons.mp hlogs
    exact ⟨hlog, hlogs, hover⟩
  · rintro ⟨hlog, hlogs, hover⟩
    refine ⟨?_, ?_⟩ <;> rw [hd]
    · exact List.forall_mem_cons.mpr ⟨hlog, hlogs⟩
    · exact hover

/-- The dispatch is over. -/
lemma serves_last {a : Accept} (ha : c.again n (process (some a)).1 = false) :
    Serves c n (a :: queue) ↔ Settled (process (some a)).2 ∧ Over queue := by
  have hd : dispatch c n (a :: queue) = ([(process (some a)).2], queue) := by
    simp only [dispatch, ha, Bool.false_eq_true, if_false]
  constructor
  · rintro ⟨hlogs, hover⟩
    rw [hd] at hlogs hover
    exact ⟨hlogs _ List.mem_cons_self, hover⟩
  · rintro ⟨hlog, hover⟩
    refine ⟨?_, ?_⟩ <;> rw [hd]
    · exact List.forall_mem_singleton.mpr hlog
    · exact hover

lemma Over.tail {a : Accept} (h : Over (a :: queue)) : Over queue :=
  fun fd k acceptCb hm => h fd k acceptCb (List.mem_cons_of_mem _ hm)

lemma fine_of_over (h : Over queue) : Fine c n queue := by
  cases queue with
  | nil => trivial
  | cons a queue =>
    cases a with
    | error => exact h.tail
    | connection fd k acceptCb => exact absurd List.mem_cons_self (h fd k acceptCb)

lemma serves_iff_fine (c : Context) (n : ℕ) (queue : List Accept) :
    Serves c n queue ↔ Fine c n queue := by
  induction queue generalizing n with
  | nil =>
    refine iff_of_true ⟨?_, over_nil⟩ trivial
    exact List.forall_mem_singleton.mpr settled_nil
  | cons a queue ih =>
    cases a with
    | error =>
      rw [serves_last (by simp [process, SelfErase.process, Context.again]), Fine]
      exact and_iff_right settled_nil
    | connection fd k acceptCb =>
      by_cases hk : k.Configures
      · have hp := process_configured fd acceptCb hk
        have hlog : Settled (process (some (.connection fd k acceptCb))).2 := by
          rw [hp]
          exact settled_handed fd
        rw [Fine, and_iff_right hk]
        cases acceptCb with
        | ret r =>
          rw [serves_again (by rw [hp]; rfl), and_iff_right hlog, ih, and_iff_right (by simp)]
        | throws =>
          by_cases ha : c.again n .throws = true
          · rw [serves_again (by rw [hp]; exact ha), and_iff_right hlog, ih,
              and_iff_right fun _ => .inl ha]
          · have hlast : c.again n .throws = false := by simpa using ha
            rw [serves_last (by rw [hp]; exact hlast), and_iff_right hlog]
            exact ⟨fun h => ⟨fun _ => .inr h, fine_of_over h⟩, fun h => (h.1 rfl).resolve_left ha⟩
      · -- whether or not the loop goes on, the descriptor is lost
        have hlog : ¬ Settled (process (some (.connection fd k acceptCb))).2 := by
          rw [process_failed hk]
          exact not_settled_leaked fd
        refine iff_of_false (fun h => ?_) fun h => hk h.1
        cases ha : c.again n (process (some (.connection fd k acceptCb))).1 with
        | true => exact hlog ((serves_again ha).mp h).1
        | false => exact hlog ((serves_last ha).mp h).1

/-- **Every accepted connection is handed over or closed**, and none is left waiting behind a
failure, exactly if every descriptor can be configured, and no `accept` that fails and no accept
callback that throws ends the dispatch before others. -/
theorem serves_iff (c : Context) (queue : List Accept) : Serves c 0 queue ↔ Fine c 0 queue :=
  serves_iff_fine c 0 queue

/-- A connection that can be configured, and one that cannot. -/
def configurable : Answers := ⟨true, some .INET6, fun _ => true⟩

def notConfigurable : Answers := ⟨true, some .INET6, fun o => o ≠ .TCP_NODELAY⟩

/-- The second of three connections cannot be configured: its descriptor is neither handed over
nor closed, and the third one stays in the queue. -/
theorem descriptor_lost :
    dispatch (.execute fun _ => false) 0 [.connection 5 configurable (.ret 0),
      .connection 6 notConfigurable (.ret 0), .connection 7 configurable (.ret 0)] =
        ([[.accepted 5, .handed 5], [.accepted 6]], [.connection 7 configurable (.ret 0)]) ∧
    ¬ ∀ c queue, Serves c 0 queue := by
  have hd : dispatch (.execute fun _ => false) 0 [.connection 5 configurable (.ret 0),
      .connection 6 notConfigurable (.ret 0), .connection 7 configurable (.ret 0)] =
        ([[.accepted 5, .handed 5], [.accepted 6]], [.connection 7 configurable (.ret 0)]) := rfl
  refine ⟨hd, fun h => ?_⟩
  have hlogs := (h (.execute fun _ => false) [.connection 5 configurable (.ret 0),
    .connection 6 notConfigurable (.ret 0), .connection 7 configurable (.ret 0)]).settled
  rw [hd] at hlogs
  exact not_settled_leaked 6 (hlogs _ (by simp))

end Hbm.Accepting
