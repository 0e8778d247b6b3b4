import Hbm.Construct

/-!
A callback that erases its own registration while `addEvent` or `addOutEvent` runs it.

The drain works on its own reference to the callback, outside the table and the mutex. It goes on
for as long as the callback returns more than zero, whatever has become of the registration.
-/

namespace Hbm.SelfErase

open Hbm.Epoll Hbm.Handlers Hbm.Run Hbm.Execute Hbm.Construct

variable {H K : Type*}

/-! ### One drain watched -/

/-- The call of `addEvent` or `addOutEvent` on thread `t`, when `depth` other drains are running
there. -/
structure Site where
  t : Thread
  depth : ℕ
  d : Dir
  fd : Fd

/-- The machine, and what the drain has seen of its callback: for every call that has ended,
newest first, whether the callback erased its own registration, and how it ended. -/
structure Watch (H K : Type*) where
  st : St H K
  past : List (Bool × Outcome)
  /-- whether the running call has erased the registration; `none` after the drain -/
  now : Option Bool

/-- The step ends the call that the drain is making. -/
def ending {W : Type*} (x : Site) (s : St H K) : Label H W → Option Outcome
  | .ret t r => if t = x.t ∧ (s.drains x.t).length = x.depth + 1 then some (.ret r) else none
  | .throws t => if t = x.t ∧ (s.drains x.t).length = x.depth + 1 then some .throws else none
  | _ => none

/-- The step erases the registration, from within the callback. -/
def erases {W : Type*} (x : Site) (s : St H K) : Label H W → Bool
  | .call t (.erase d fd) =>
    decide (t = x.t ∧ d = x.d ∧ fd = x.fd) && (handler s.lo.eventInfos fd d).isSome
  | _ => false

variable [Kernel K]

def watch (x : Site) (w : Watch H K) (l : Label H (Kernel.World K)) : Option (Watch H K) :=
  (step w.st l).map fun u =>
    match w.now with
    | none => { w with st := u }
    | some e =>
      match ending x w.st l with
      | some o =>
        -- the callback is called again if the drain is still there
        { st := u
          past := (e, o) :: w.past
          now := if (u.drains x.t).length = x.depth + 1 then some false else none }
      | none => { w with st := u, now := some (e || erases x w.st l) }

/-- At the first call of the callback. -/
def first (s : St H K) : Watch H K := ⟨s, [], some false⟩

/-- `addEvent` or `addOutEvent` up to the first call of the callback; `none` if there is none. -/
def register (s : St H K) (x : Site) (g : H) (a : Addr) : Option (Watch H K) :=
  (step s (.call x.t (.add x.d x.fd (some g) a))).bind fun u =>
    if (s.drains x.t).length = x.depth ∧ (u.drains x.t).length = x.depth + 1 then some (first u)
    else none

omit [Kernel K] in
/-- After a call that has erased the registration there is no other. -/
def Respects (w : Watch H K) : Prop :=
  ∀ newer x older, w.past = newer ++ x :: older → x.1 = true → newer = [] ∧ w.now = none

/-- The condition on the steps: a call that has erased the registration returns no more than
zero, or throws. -/
def Quits (x : Site) (w : Watch H K) (l : Label H (Kernel.World K)) : Prop :=
  w.now = some true → ∀ r, ending x w.st l = some (.ret r) → r ≤ 0

instance (x : Site) (w : Watch H K) (l : Label H (Kernel.World K)) : Decidable (Quits x w l) := by
  unfold Quits
  cases ending x w.st l with
  | none => exact isTrue (by simp)
  | some o =>
    cases o with
    | ret r => exact decidable_of_iff (w.now = some true → r ≤ 0) (by simp)
    | throws => exact isTrue (by simp)

/-! ### What ends the drain -/

variable {x : Site} {w v : Watch H K} {l : Label H (Kernel.World K)} {s u : St H K}

/-- After a result that is more than zero the drain is still there. -/
lemma ending_more {r : ℤ} (hend : ending x s l = some (.ret r)) (hr : 0 < r)
    (h : step s l = some u) : (u.drains x.t).length = x.depth + 1 := by
  cases l with
  | ret t r' =>
    simp only [ending, Option.ite_none_right_eq_some, Option.some.injEq, Outcome.ret.injEq] at hend
    obtain ⟨⟨rfl, hlen⟩, rfl⟩ := hend
    cases stepRet_cases h with
    | again f rest hd hr' => exact hlen
    | drained f rest hd hr' => omega
    | more round n d p k hd | done round n d p k hd =>
      rw [hd] at hlen
      exact absurd hlen (by simp)
  | throws t => simp [ending] at hend
  | execute | fill | fail | tau | call | world => cases hend

/-- After any other end of a call it is gone. -/
lemma ending_last {o : Outcome} (hend : ending x s l = some o) (ho : ∀ r, o = .ret r → r ≤ 0)
    (h : step s l = some u) : (u.drains x.t).length = x.depth := by
  cases l with
  | ret t r =>
    simp only [ending, Option.ite_none_right_eq_some, Option.some.injEq] at hend
    obtain ⟨⟨rfl, hlen⟩, rfl⟩ := hend
    have hle := ho r rfl
    cases stepRet_cases h with
    | again f rest hd hr => omega
    | drained f rest hd hr =>
      rw [hd] at hlen
      simpa using hlen
    | more round n d p k hd | done round n d p k hd =>
      rw [hd] at hlen
      exact absurd hlen (by simp)
  | throws t =>
    simp only [ending, Option.ite_none_right_eq_some] at hend
    obtain ⟨⟨rfl, hlen⟩, -⟩ := hend
    cases stepThrow_cases h with
    | drain f rest hd =>
      rw [hd] at hlen
      simpa using hlen
    | caught round n d p k hd =>
      rw [hd] at hlen
      exact absurd hlen (by simp)
  | execute | fill | fail | tau | call | world => cases hend

/-- What a step does to the drain. -/
inductive Watched (x : Site) (w : Watch H K) (l : Label H (Kernel.World K)) : Watch H K → Prop
  | after (u : St H K) (hu : step w.st l = some u) (hn : w.now = none) :
      Watched x w l { w with st := u }
  | again (u : St H K) (hu : step w.st l = some u) (e : Bool) (hn : w.now = some e) (r : ℤ)
      (hend : ending x w.st l = some (.ret r)) (hr : 0 < r) :
      Watched x w l ⟨u, (e, .ret r) :: w.past, some false⟩
  | last (u : St H K) (hu : step w.st l = some u) (e : Bool) (hn : w.now = some e) (o : Outcome)
      (hend : ending x w.st l = some o) (ho : ∀ r, o = .ret r → r ≤ 0) :
      Watched x w l ⟨u, (e, o) :: w.past, none⟩
  | within (u : St H K) (hu : step w.st l = some u) (e : Bool) (hn : w.now = some e)
      (hend : ending x w.st l = none) :
      Watched x w l { w with st := u, now := some (e || erases x w.st l) }

lemma watch_cases (h : watch x w l = some v) : Watched x w l v := by
  obtain ⟨st, past, now⟩ := w
  obtain ⟨u, hu, rfl⟩ := Option.map_eq_some_iff.mp h
  rcases now with _ | e
  · exact .after u hu rfl
  · rcases hend : ending x st l with _ | o
    · exact .within u hu e rfl hend
    · by_cases ho : ∀ r, o = .ret r → r ≤ 0
      · have hlast := ending_last hend ho hu
        simp only [hlast, Nat.ne_of_lt (Nat.lt_succ_self _), if_false]
        exact .last u hu e rfl o hend ho
      · push Not at ho
        obtain ⟨r, rfl, hr⟩ := ho
        simp only [ending_more hend hr hu, if_true]
        exact .again u hu e rfl r hend hr

/-- A step starts a drain on the thread, ends its innermost one, or leaves them. -/
lemma drains_step (h : step s l = some u) (t : Thread) :
    u.drains t = s.drains t ∨ (∃ f, u.drains t = f :: s.drains t) ∨
      ∃ f, s.drains t = f :: u.drains t ∧ ((∃ r, l = .ret t r) ∨ l = .throws t) := by
  cases l with
  | execute =>
    obtain ⟨r, -, -, rfl⟩ := step_execute h
    exact Or.inl rfl
  | fill rs =>
    obtain ⟨-, k, -, rfl⟩ := step_fill h
    exact Or.inl rfl
  | fail eintr =>
    obtain ⟨-, rfl⟩ := step_fail h
    exact Or.inl rfl
  | world e =>
    obtain ⟨k, -, rfl⟩ := step_world h
    exact Or.inl rfl
  | tau => cases stepTau_cases h <;> exact Or.inl rfl
  | call t' c =>
    cases step_call h with
    | added d fd g a ha hr =>
      by_cases ht : t = t'
      · subst ht
        exact Or.inr (Or.inl ⟨⟨d, fd, g⟩, by simp⟩)
      · exact Or.inl (Function.update_of_ne ht _ _)
    | refused d fd eh a ha hr => exact Or.inl rfl
    | erased d fd g hh => exact Or.inl rfl
    | absent d fd hh => exact Or.inl rfl
  | ret t' r =>
    cases stepRet_cases h with
    | drained f rest hd hr =>
      by_cases ht : t = t'
      · subst ht
        exact Or.inr (Or.inr ⟨f, by simpa using hd, Or.inl ⟨r, rfl⟩⟩)
      · exact Or.inl (Function.update_of_ne ht _ _)
    | again f rest hd hr => exact Or.inl rfl
    | more round n d p k hd ht hpc hr => exact Or.inl rfl
    | done round n d p k hd ht hpc hr => exact Or.inl rfl
  | throws t' =>
    cases stepThrow_cases h with
    | drain f rest hd =>
      by_cases ht : t = t'
      · subst ht
        exact Or.inr (Or.inr ⟨f, by simpa using hd, Or.inr rfl⟩)
      · exact Or.inl (Function.update_of_ne ht _ _)
    | caught round n d p k hd ht hpc => exact Or.inl rfl

/-- As long as the drain calls its callback it is on the stack of its thread, with what runs
inside the callback above it. -/
def OnStack (x : Site) (g : H) (rest : List (Drain H)) (w : Watch H K) : Prop :=
  w.now ≠ none → ∃ inner, w.st.drains x.t = inner ++ ⟨x.d, x.fd, g⟩ :: rest

lemma onStack_step {g : H} {rest : List (Drain H)} (hrest : rest.length = x.depth)
    (hw : OnStack x g rest w) (h : watch x w l = some v) : OnStack x g rest v := by
  cases watch_cases h with
  | after u hu hn => exact fun hne => absurd hn hne
  | again u hu e hn r hend hr =>
    intro _
    obtain ⟨inner, hs⟩ := hw (by simp [hn])
    have hlen := ending_more hend hr hu
    rcases drains_step hu x.t with hd | ⟨f, hd⟩ | ⟨f, hd, -⟩
    · exact ⟨inner, hd.trans hs⟩
    · rw [hd, hs] at hlen
      simp only [List.length_cons, List.length_append] at hlen
      omega
    · rw [hs] at hd
      cases inner with
      | nil =>
        rw [← (List.cons.inj hd).2] at hlen
        omega
      | cons z inner => exact ⟨inner, (List.cons.inj hd).2.symm⟩
  | last u hu e hn o hend ho => exact fun hne => absurd rfl hne
  | within u hu e hn hend =>
    intro _
    obtain ⟨inner, hs⟩ := hw (by simp [hn])
    rcases drains_step hu x.t with hd | ⟨f, hd⟩ | ⟨f, hd, hl⟩
    · exact ⟨inner, hd.trans hs⟩
    · exact ⟨f :: inner, by rw [hd, hs]; rfl⟩
    · -- only a call inside the callback can end here
      cases inner with
      | nil =>
        have hlen : (w.st.drains x.t).length = x.depth + 1 := by rw [hs]; simp [hrest]
        rcases hl with ⟨r, rfl⟩ | rfl <;> simp [ending, hlen] at hend
      | cons z inner =>
        rw [hs] at hd
        exact ⟨inner, (List.cons.inj hd).2.symm⟩

lemma register_some {g : H} {a : Addr} (h : register s x g a = some w) :
    ∃ u, w = first u ∧ u.drains x.t = ⟨x.d, x.fd, g⟩ :: s.drains x.t ∧
      (s.drains x.t).length = x.depth := by
  obtain ⟨u, hcall, hu⟩ := Option.bind_eq_some_iff.mp h
  obtain ⟨⟨hdepth, hlen⟩, rfl⟩ : ((s.drains x.t).length = x.depth ∧
      (u.drains x.t).length = x.depth + 1) ∧ first u = w := by simpa using hu
  refine ⟨u, rfl, ?_, hdepth⟩
  cases step_call hcall with
  | added d fd g a ha hr => simp
  | refused d fd eh a ha hr => simp [hdepth] at hlen

/-- The calls of a drain: as long as it calls its callback the registration of `addEvent` or
`addOutEvent` is still to return. -/
theorem onStack_run {g : H} {a : Addr} {w₀ : Watch H K} {ls : List (Label H (Kernel.World K))}
    (hreg : register s x g a = some w₀) (h : run (watch x) w₀ ls = some w) :
    OnStack x g (s.drains x.t) w := by
  obtain ⟨u, rfl, hd, hlen⟩ := register_some hreg
  exact run_inv (fun _ _ _ hw h => onStack_step hlen hw h) (fun _ => ⟨[], hd⟩) h

/-! ### Runs of a drain -/

/-- No call that has ended erased the registration, or the last one did and the drain is over. -/
structure Inv (w : Watch H K) : Prop where
  respects : Respects w
  clean : ∀ e, w.now = some e → ∀ y ∈ w.past, y.1 = false

omit [Kernel K] in
lemma respects_of_clean (h : ∀ y ∈ w.past, y.1 = false) : Respects w := by
  intro newer y older hpast hy
  rw [h y (by simp [hpast])] at hy
  cases hy

lemma inv_step (hi : Inv w) (hq : Quits x w l) (h : watch x w l = some v) : Inv v := by
  cases watch_cases h with
  | after u hu hn =>
    refine ⟨hi.respects, fun e he => ?_⟩
    rw [hn] at he
    cases he
  | again u hu e hn r hend hr =>
    have he : e = false := by
      cases e with
      | false => rfl
      | true => exact absurd (hq hn r hend) (not_le.mpr hr)
    have hclean : ∀ y ∈ (e, Outcome.ret r) :: w.past, y.1 = false :=
      List.forall_mem_cons.mpr ⟨he, hi.clean e hn⟩
    exact ⟨respects_of_clean hclean, fun _ _ => hclean⟩
  | last u hu e hn o hend ho =>
    refine ⟨fun newer y older hpast hy => ⟨?_, rfl⟩, nofun⟩
    cases newer with
    | nil => rfl
    | cons z newer =>
      -- only the call that has just ended can have erased the registration
      obtain ⟨-, hpast⟩ := List.cons.inj hpast
      rw [hi.clean e hn y (by simp [hpast])] at hy
      cases hy
  | within u hu e hn hend =>
    exact ⟨respects_of_clean (hi.clean e hn), fun _ _ => hi.clean e hn⟩

/-- A drain that goes on after such a call has gone wrong. -/
lemma quits_of_respects (h : watch x w l = some v) (hv : Respects v) : Quits x w l := by
  intro hn r hend
  by_contra hr
  obtain ⟨u, hu, rfl⟩ := Option.map_eq_some_iff.mp h
  simp only [hn, hend, ending_more hend (not_le.mp hr) hu, if_true] at hv
  have hnow := (hv [] (true, .ret r) w.past rfl rfl).2
  cases hnow

/-- **The initial drain and an erased registration**, for every state of the loop, every
registration and whatever runs meanwhile: the callback is not called again after it has erased
its own registration exactly if each call that erases it returns no more than zero, or throws. -/
theorem respects_iff {g : H} {a : Addr} {w₀ : Watch H K} {ls : List (Label H (Kernel.World K))}
    (hreg : register s x g a = some w₀) (h : run (watch x) w₀ ls = some w) :
    Always (watch x) Respects w₀ ls ↔ Meets (watch x) (Quits x) w₀ ls := by
  obtain ⟨u, rfl, -⟩ := register_some hreg
  have hinit : Inv (first u) := ⟨respects_of_clean nofun, fun _ _ => nofun⟩
  exact always_iff_meets (fun _ _ _ hi hq h => inv_step hi hq h) (fun _ hi => hi.respects)
    (fun _ _ _ _ h hv => quits_of_respects h hv) hinit h

/-! ### The accept callback of a server -/

/-- `TcpServer::process`: what `accept` has returned and how the accept callback ended. -/
def process (clientFd : ℤ) (acceptCb : Outcome) : Outcome :=
  if clientFd = -1 then .ret (-1)
  else match acceptCb with
    | .ret _ => .ret 1
    | .throws => .throws

/-- `TcpServer::stop`, called by an accept callback that returns, does not end the drain of
`TcpServer::start`. -/
lemma not_quits_of_accept {clientFd r : ℤ} (hfd : clientFd ≠ -1) (hstop : w.now = some true)
    (hend : ending x w.st l = some (process clientFd (.ret r))) : ¬ Quits x w l := by
  intro hq
  have hle := hq hstop 1 (by rw [hend, process, if_neg hfd])
  omega

/-- Thread 0 registers a callback for the input of descriptor 3. -/
def site : Site := ⟨.other 0, 0, .inp, 3⟩

/-- A call that leaves the registration and asks for another one, which erases it and has
nothing left to do. -/
def eraseAtEnd : List (Label ℕ (Kernel.World Interest)) :=
  [.ret (.other 0) 1, .call (.other 0) (.erase .inp 3), .ret (.other 0) 0]

/-- The first call erases the registration and asks for another call. -/
def eraseAndMore : List (Label ℕ (Kernel.World Interest)) :=
  [.call (.other 0) (.erase .inp 3), .ret (.other 0) 1]

theorem respects_iff_eraseAtEnd : ∃ w₀ w, register (fresh 5) site 10 1 = some w₀ ∧
    run (watch site) w₀ eraseAtEnd = some w ∧ w.past = [(true, .ret 0), (false, .ret 1)] ∧
    (Always (watch site) Respects w₀ eraseAtEnd ↔ Meets (watch site) (Quits site) w₀ eraseAtEnd) :=
  ⟨_, _, rfl, rfl, rfl, respects_iff (s := fresh 5) (g := 10) (a := 1) rfl rfl⟩

/-- The callback is called again after the call in which it erased its registration. -/
theorem called_after_erase : ¬ ∀ (w₀ w : Watch ℕ Interest)
    (ls : List (Label ℕ (Kernel.World Interest))), register (fresh 5) site 10 1 = some w₀ →
    run (watch site) w₀ ls = some w → Respects w := by
  intro h
  have hnow := (h _ _ eraseAndMore rfl rfl [] (true, .ret 1) [] rfl rfl).2
  cases hnow

end Hbm.SelfErase
