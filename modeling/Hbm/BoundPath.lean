import Hbm.StartStop

/-!
The path that a `TcpServer` binds, and the one that `stop` unlinks.

`start` with a path binds what fits into `sun_path`, and keeps the whole path in a member for
`stop`. Nothing but another `start` with a path changes the member. So `stop` unlinks the path again
when it is called again, and after a `start` with a port.
-/

namespace Hbm.BoundPath

open Hbm.Run Hbm.StartStop

/-- The bytes of a `std::string`. -/
abbrev Path := List UInt8

/-- What the kernel takes for a name. An address without a name is not in the file system: `[]`
stands for the abstract address that `bind` is given then. -/
abbrev Name := List UInt8

/-- `path.c_str()`, as far as a C function reads it. -/
def cStr (path : Path) : Name := path.takeWhile (· ≠ 0)

/-- `sizeof(address.sun_path)`. -/
def sunPathSize : ℕ := 108

/-- What `strncpy` puts into `sun_path`. -/
def sunPath (path : Path) : Name := (cStr path).take (sunPathSize - 1)

/-- Who has bound a name. -/
inductive Party
  | server | other
  deriving DecidableEq

inductive Obs
  | unlink (n : Name)
  /-- `start` returned 0, with the name that is bound if it was called with a path -/
  | started (n : Option Name)
  | stopped
  deriving DecidableEq

/-- `bound` is the name of the listening socket; `log` has the newest first. -/
structure St where
  path : Path
  bound : Option Name
  fs : Name → Option Party
  log : List Obs

/-- `unlink`, called by the server. -/
def St.unlink (s : St) (n : Name) : St :=
  { s with
    fs := if n = [] then s.fs else Function.update s.fs n none
    log := .unlink n :: s.log }

/-- `start` with a port. -/
def startPort (s : St) (acceptCb : Bool) (k : TcpCalls) : St × ℤ :=
  if !acceptCb then (s, -1)
  else if !k.socket then ({ s with bound := none }, -1)
  else if !k.setsockopt then ({ s with bound := none }, -1)
  else if !k.bind then ({ s with bound := none }, -1)
  else if !k.listen then ({ s with bound := none }, -1)
  else ({ s with bound := none, log := .started none :: s.log }, 0)

/-- `start` with a path. `bind` fails on a name that is there, whatever else it might fail on. -/
def startPath (s : St) (path : Path) (k : TcpCalls) : St × ℤ :=
  if !k.socket then ({ s with bound := none }, -1)
  else if !k.setsockopt then ({ s with bound := none }, -1)
  else
    let s := s.unlink (cStr path)
    if !k.bind || (s.fs (sunPath path)).isSome then ({ s with bound := none }, -1)
    else
      let s := { s with
        bound := some (sunPath path)
        fs := Function.update s.fs (sunPath path) (some .server) }
      if !k.listen then (s, -1)
      else ({ s with path := path, log := .started (some (sunPath path)) :: s.log }, 0)

/-- `close` of the listening socket. An abstract address goes with it. -/
def St.close (s : St) : St :=
  { s with
    bound := none
    fs := if s.bound = some [] then Function.update s.fs [] none else s.fs }

def stop (s : St) : St :=
  let s := s.close
  let s := if s.path.isEmpty then s else s.unlink (cStr s.path)
  { s with log := .stopped :: s.log }

/-- Another process binds a path, or unlinks one. -/
inductive Other
  | bind (n : Name)
  | unlink (n : Name)

def St.other (s : St) : Other → St
  | .bind n =>
    if n = [] ∨ (s.fs n).isSome then s
    else { s with fs := Function.update s.fs n (some .other) }
  | .unlink n => if n = [] then s else { s with fs := Function.update s.fs n none }

inductive Label
  | startPort (acceptCb : Bool) (k : TcpCalls)
  | startPath (path : Path) (k : TcpCalls)
  | stop
  | other (o : Other)

def step (s : St) : Label → Option St
  | .startPort acceptCb k => some (startPort s acceptCb k).1
  | .startPath path k => some (startPath s path k).1
  | .stop => some (stop s)
  | .other o => some (s.other o)

/-- A server that was not started, among the files that are there. -/
def init (fs : Name → Option Party) : St := ⟨[], none, fs, []⟩

/-! ### What `stop` may unlink -/

/-- The name that `stop` gives to `unlink`. -/
def given (s : St) : Option Name := if s.path.isEmpty then none else some (cStr s.path)

/-- The name that the latest successful `start` bound and that was not unlinked since. -/
def latest : List Obs → Option Name
  | [] => none
  | .started b :: _ => b
  | .unlink n :: log => if latest log = some n then none else latest log
  | .stopped :: log => latest log

/-- The names that were bound since the last `stop`, by a `start` that returned 0. -/
def pending : List Obs → List Name
  | [] | .stopped :: _ => []
  | .started b :: log => b.toList ++ pending log
  | .unlink _ :: log => pending log

/-- `stop` unlinks what was bound, and nothing else. -/
structure Exact (s : St) : Prop where
  bound : ∀ n ∈ pending s.log, n ≠ [] → given s = some n
  only : ∀ n, given s = some n → n ≠ [] → latest s.log = some n

/-- The kernel has nothing against it but a name that is there. -/
def Grants (k : TcpCalls) : Prop := k = ⟨true, true, true, true⟩

/-- After `stop` the server can be started with the path again, whatever other processes bind. -/
def Restarts (s : St) (path : Path) : Prop :=
  ∀ (os os' : List Other) (k), Grants k →
    (startPath (os'.foldl St.other (stop (os.foldl St.other s))) path k).2 = 0

/-- `stop` unlinks exactly what the server has bound, and a path that the server was started with
can be bound again after `stop`. -/
def UnlinksBound (s : St) : Label → Prop
  | .stop => Exact s
  | .startPath path k => (startPath s path k).2 = 0 → Restarts (startPath s path k).1 path
  | _ => True

/-! ### When it holds -/

/-- The name of the last path that the server was started with. -/
def lastName : List Obs → Name
  | [] => []
  | .started (some n) :: _ => n
  | _ :: log => lastName log

/-- The server was started with the name; since then there was no `stop`, no other successful
`start`, and none that came to `unlink` with this name. -/
def Held (n : Name) : List Obs → Prop
  | [] => False
  | .started b :: _ => b = some n
  | .unlink m :: log => m ≠ n ∧ Held n log
  | .stopped :: _ => False

/-- `stop` finds the server as the last `start` with a path has left it, and the other paths that it
was started with since the `stop` before were the same. -/
structure Due (log : List Obs) : Prop where
  held : lastName log ≠ [] → Held (lastName log) log
  same : ∀ n ∈ pending log, n ≠ [] → n = lastName log

/-- The condition on the calls: a path that can be bound fits into `sun_path`, and `stop` is due. -/
def Fits (s : St) : Label → Prop
  | .stop => Due s.log
  | .startPath path k =>
    Grants k → (cStr path).length < sunPathSize ∨ (s.fs (sunPath path)).isSome
  | _ => True

variable {s t : St} {path : Path} {k : TcpCalls} {l : Label} {n : Name} {log : List Obs}

/-! ### Names -/

lemma sunPath_of_lt (h : (cStr path).length < sunPathSize) : sunPath path = cStr path :=
  List.take_of_length_le (by omega)

/-- What does not fit is bound under another name. -/
lemma sunPath_ne (h : ¬ (cStr path).length < sunPathSize) :
    sunPath path ≠ cStr path ∧ sunPath path ≠ [] := by
  have hlen : (sunPath path).length = sunPathSize - 1 := List.length_take_of_le (by omega)
  have hsize : sunPathSize = 108 := rfl
  constructor
  · intro he
    rw [he] at hlen
    omega
  · intro he
    rw [he, List.length_nil] at hlen
    omega

/-- After `unlink` no file has the name. -/
lemma unlink_self (hn : n ≠ []) : (s.unlink n).fs n = none := by
  simp only [St.unlink, if_neg hn, Function.update_self]

lemma unlink_of_ne {m : Name} (hm : m ≠ n) : (s.unlink n).fs m = s.fs m := by
  unfold St.unlink
  split
  · rfl
  · exact Function.update_of_ne hm none s.fs

/-! ### One call -/

/-- What `start` with a path does. -/
inductive Started (s : St) (path : Path) (k : TcpCalls) : St → ℤ → Prop
  | refused : ¬ Grants k → Started s path k { s with bound := none } (-1)
  | taken : ((s.unlink (cStr path)).fs (sunPath path)).isSome ∨ ¬ Grants k →
      Started s path k { s.unlink (cStr path) with bound := none } (-1)
  | notListening : ¬ Grants k → Started s path k
      { s.unlink (cStr path) with
        bound := some (sunPath path)
        fs := Function.update (s.unlink (cStr path)).fs (sunPath path) (some .server) } (-1)
  | started : Grants k → (s.unlink (cStr path)).fs (sunPath path) = none → Started s path k
      { s.unlink (cStr path) with
        path := path
        bound := some (sunPath path)
        fs := Function.update (s.unlink (cStr path)).fs (sunPath path) (some .server)
        log := .started (some (sunPath path)) :: .unlink (cStr path) :: s.log } 0

lemma startPath_cases (s : St) (path : Path) (k : TcpCalls) :
    Started s path k (startPath s path k).1 (startPath s path k).2 := by
  obtain ⟨socket, setsockopt, bind, listen⟩ := k
  unfold startPath
  cases socket with
  | false => exact .refused nofun
  | true =>
    cases setsockopt with
    | false => exact .refused nofun
    | true =>
      cases bind with
      | false => exact .taken (.inr nofun)
      | true =>
        cases hfs : ((s.unlink (cStr path)).fs (sunPath path)).isSome with
        | true =>
          simpa [hfs] using .taken (.inl hfs)
        | false =>
          cases listen with
          | false => simpa [hfs] using .notListening nofun
          | true => simpa [hfs] using .started rfl (by simpa using hfs)

/-- `start` returns 0 if nothing has the name once it was unlinked. -/
lemma startPath_zero_iff : (startPath s path k).2 = 0 ↔
    Grants k ∧ (s.unlink (cStr path)).fs (sunPath path) = none := by
  have hcases := startPath_cases s path k
  generalize startPath s path k = r at hcases ⊢
  obtain ⟨t, r⟩ := r
  cases hcases with
  | refused hk | notListening hk => exact iff_of_false nofun fun h => hk h.1
  | taken h =>
    refine iff_of_false nofun fun ⟨hk, hfs⟩ => ?_
    rcases h with h | h
    · rw [hfs] at h
      cases h
    · exact h hk
  | started hk hfs => exact iff_of_true rfl ⟨hk, hfs⟩

lemma startPath_started (h : (startPath s path k).2 = 0) :
    (startPath s path k).1.path = path ∧ (startPath s path k).1.bound = some (sunPath path) ∧
      (startPath s path k).1.fs (sunPath path) = some .server := by
  have hcases := startPath_cases s path k
  generalize startPath s path k = r at hcases h ⊢
  obtain ⟨t, r⟩ := r
  cases hcases with
  | refused | taken | notListening => cases h
  | started hk hfs => exact ⟨rfl, rfl, Function.update_self _ _ _⟩

/-! ### The server is started again -/

/-- Other processes leave the server and the abstract addresses alone. -/
lemma others_keep (os : List Other) (s : St) : (os.foldl St.other s).path = s.path ∧
    (os.foldl St.other s).bound = s.bound ∧ (os.foldl St.other s).fs [] = s.fs [] := by
  induction os generalizing s with
  | nil => exact ⟨rfl, rfl, rfl⟩
  | cons o os ih =>
    have ho : (s.other o).path = s.path ∧ (s.other o).bound = s.bound ∧
        (s.other o).fs [] = s.fs [] := by
      cases o with
      | bind n =>
        by_cases hn : n = [] ∨ (s.fs n).isSome
        · simp only [St.other, if_pos hn, and_self]
        · have hne : [] ≠ n := fun he => hn (.inl he.symm)
          simp only [St.other, if_neg hn, Function.update_of_ne hne, and_self]
      | unlink n =>
        by_cases hn : n = []
        · simp only [St.other, if_pos hn, and_self]
        · have hne : [] ≠ n := Ne.symm hn
          simp only [St.other, if_neg hn, Function.update_of_ne hne, and_self]
    obtain ⟨hpath, hbound, hfs⟩ := ih (s.other o)
    exact ⟨hpath.trans ho.1, hbound.trans ho.2.1, hfs.trans ho.2.2⟩

lemma stop_of_empty (h : s.path = []) :
    stop s = { s.close with log := .stopped :: s.log } := by
  have he : s.close.path.isEmpty = true := by simp [St.close, h]
  simp only [stop, he, if_true]
  rfl

lemma stop_of_ne (h : s.path ≠ []) : stop s =
    { s.close.unlink (cStr s.path) with log := .stopped :: .unlink (cStr s.path) :: s.log } := by
  have he : s.close.path.isEmpty = false := by simpa [St.close] using h
  simp only [stop, he, Bool.false_eq_true, if_false]
  rfl

/-- `stop` releases an abstract address. -/
lemma stop_abstract (h : s.bound = some []) (hpath : cStr s.path = []) : (stop s).fs [] = none := by
  have hclose : s.close.fs [] = none := by simp only [St.close, if_pos h, Function.update_self]
  by_cases hempty : s.path = []
  · rw [stop_of_empty hempty]
    exact hclose
  · rw [stop_of_ne hempty, hpath]
    exact hclose

lemma restarts_of_lt (h : (startPath s path k).2 = 0) (hlen : (cStr path).length < sunPathSize) :
    Restarts (startPath s path k).1 path := by
  intro os os' k' hk'
  obtain ⟨hpath, hbound, -⟩ := startPath_started h
  generalize (startPath s path k).1 = t at hpath hbound
  rw [sunPath_of_lt hlen] at hbound
  refine startPath_zero_iff.mpr ⟨hk', ?_⟩
  rw [sunPath_of_lt hlen]
  by_cases hnil : cStr path = []
  · -- the abstract address was released
    have hkeep := others_keep os t
    have hstop : (stop (os.foldl St.other t)).fs [] = none :=
      stop_abstract (by rw [hkeep.2.1, hbound, hnil]) (by rw [hkeep.1, hpath, hnil])
    have hfs := (others_keep os' (stop (os.foldl St.other t))).2.2
    rw [hnil]
    simpa [St.unlink] using hfs.trans hstop
  · exact unlink_self hnil

/-- What has been bound stays where the path is too long for `unlink` to find it. -/
lemma not_restarts (h : (startPath s path k).2 = 0) (hlen : ¬ (cStr path).length < sunPathSize) :
    ¬ Restarts (startPath s path k).1 path := by
  intro hre
  obtain ⟨hne, hnil⟩ := sunPath_ne hlen
  have hzero := hre [] [] k (startPath_zero_iff.mp h).1
  obtain ⟨hpath, hbound, hfs⟩ := startPath_started h
  generalize (startPath s path k).1 = t at hzero hpath hbound hfs
  have hfree := (startPath_zero_iff.mp hzero).2
  have hstop : (stop t).fs (sunPath path) = t.fs (sunPath path) := by
    have hclose : t.close.fs = t.fs := if_neg (by simpa [hbound] using hnil)
    by_cases hempty : t.path = []
    · rw [stop_of_empty hempty]
      exact congrFun hclose _
    · rw [stop_of_ne hempty, hpath]
      exact (unlink_of_ne hne).trans (congrFun hclose _)
  rw [unlink_of_ne hne] at hfree
  simp only [List.foldl_nil] at hfree
  rw [hstop, hfs] at hfree
  cases hfree

/-- The path is long enough to be truncated only if it cannot be bound. -/
lemma restarts_iff : ((startPath s path k).2 = 0 → Restarts (startPath s path k).1 path) ↔
    (Grants k → (cStr path).length < sunPathSize ∨ (s.fs (sunPath path)).isSome) := by
  by_cases hlen : (cStr path).length < sunPathSize
  · exact iff_of_true (fun h => restarts_of_lt h hlen) fun _ => .inl hlen
  · rw [startPath_zero_iff, unlink_of_ne (sunPath_ne hlen).1]
    constructor
    · intro h hk
      refine .inr (Option.ne_none_iff_isSome.mp fun hfs => ?_)
      have hzero := startPath_zero_iff.mpr ⟨hk, (unlink_of_ne (sunPath_ne hlen).1).trans hfs⟩
      exact not_restarts hzero hlen (h ⟨hk, hfs⟩)
    · rintro h ⟨hk, hfs⟩
      rcases h hk with hlt | htaken
      · exact absurd hlt hlen
      · simp [hfs] at htaken

/-! ### `stop` -/

lemma given_iff (hn : n ≠ []) : given s = some n ↔ cStr s.path = n := by
  unfold given
  cases hpath : s.path with
  | nil => simpa [cStr] using hn.symm
  | cons b bs => simp

/-- The member has the name of the last path, and what the kernel has seen of it agrees with the
calls. -/
structure Inv (s : St) : Prop where
  name : lastName s.log = cStr s.path
  held : lastName s.log ≠ [] →
    (latest s.log = some (lastName s.log) ↔ Held (lastName s.log) s.log)

lemma inv_init (fs : Name → Option Party) : Inv (init fs) := ⟨rfl, fun h => absurd rfl h⟩

/-- `stop` unlinks what it should exactly if it is due. -/
lemma exact_iff_due (hi : Inv s) : Exact s ↔ Due s.log := by
  constructor
  · rintro ⟨hbound, honly⟩
    refine ⟨fun hne => ?_, fun n hn hne => ?_⟩
    · exact (hi.held hne).mp (honly _ ((given_iff hne).mpr hi.name.symm) hne)
    · rw [hi.name]
      exact ((given_iff hne).mp (hbound n hn hne)).symm
  · rintro ⟨hheld, hsame⟩
    refine ⟨fun n hn hne => ?_, fun n hn hne => ?_⟩
    · rw [given_iff hne, ← hi.name]
      exact (hsame n hn hne).symm
    · obtain rfl : lastName s.log = n := hi.name.trans ((given_iff hne).mp hn)
      exact (hi.held hne).mpr (hheld hne)

/-- Another path is unlinked, or the same one. -/
lemma held_unlink (h : latest log = some n ↔ Held n log) (m : Name) :
    latest (.unlink m :: log) = some n ↔ Held n (.unlink m :: log) := by
  by_cases hm : m = n
  · subst hm
    refine iff_of_false (fun hl => ?_) fun hl => hl.1 rfl
    rw [latest] at hl
    split at hl
    · cases hl
    · contradiction
  · rw [Held, and_iff_right hm, ← h, latest]
    split
    · next hl =>
      refine iff_of_false nofun fun hn => hm ?_
      exact Option.some.inj (hl.symm.trans hn)
    · exact Iff.rfl

lemma inv_startPath (hi : Inv s) (hok : Fits s (.startPath path k)) :
    Inv (startPath s path k).1 := by
  have hcases := startPath_cases s path k
  generalize startPath s path k = r at hcases ⊢
  obtain ⟨t, r⟩ := r
  cases hcases with
  | refused => exact ⟨hi.name, hi.held⟩
  | taken | notListening => exact ⟨hi.name, fun hne => held_unlink (hi.held hne) _⟩
  | started hk hfs =>
    have hlen : (cStr path).length < sunPathSize := by
      by_contra hlong
      rcases hok hk with hlt | htaken
      · exact hlong hlt
      · rw [unlink_of_ne (sunPath_ne hlong).1] at hfs
        simp [hfs] at htaken
    exact ⟨sunPath_of_lt hlen, fun _ => Iff.rfl⟩

lemma inv_stop (hi : Inv s) : Inv (stop s) := by
  by_cases hempty : s.path = []
  · rw [stop_of_empty hempty]
    refine ⟨hi.name, fun hne => absurd (hi.name.trans ?_) hne⟩
    rw [hempty]
    rfl
  · rw [stop_of_ne hempty]
    refine ⟨hi.name, fun hne => ?_⟩
    -- the name is the one that was just unlinked
    have hl := (held_unlink (hi.held hne) (cStr s.path)).mp
    refine iff_of_false (fun h => ?_) id
    exact (hl h).1 hi.name.symm

lemma Inv.congr (hi : Inv s) (hpath : t.path = s.path) (hlog : t.log = s.log) : Inv t := by
  constructor
  · rw [hpath, hlog]
    exact hi.name
  · rw [hlog]
    exact hi.held

/-- A `start` with a port leaves the path in the member. -/
lemma startPort_keeps (s : St) (acceptCb : Bool) (k : TcpCalls) :
    (startPort s acceptCb k).1.path = s.path ∧ ((startPort s acceptCb k).1.log = s.log ∨
      (startPort s acceptCb k).1.log = .started none :: s.log) := by
  unfold startPort
  split_ifs <;> exact ⟨rfl, by simp⟩

lemma other_keeps (s : St) (o : Other) : (s.other o).path = s.path ∧ (s.other o).log = s.log := by
  cases o with
  | bind n | unlink n =>
    unfold St.other
    dsimp only
    split <;> exact ⟨rfl, rfl⟩

lemma inv_startPort (hi : Inv s) (acceptCb : Bool) (k : TcpCalls) :
    Inv (startPort s acceptCb k).1 := by
  obtain ⟨hpath, hlog | hlog⟩ := startPort_keeps s acceptCb k
  · exact hi.congr hpath hlog
  · have hname : lastName (startPort s acceptCb k).1.log = lastName s.log := by rw [hlog]; rfl
    refine ⟨by rw [hname, hpath]; exact hi.name, fun _ => ?_⟩
    -- nothing is bound any more, and the name is not held
    rw [hlog]
    exact iff_of_false nofun nofun

lemma inv_step (hi : Inv s) (hok : Fits s l) (h : step s l = some t) : Inv t := by
  cases l with
  | startPort acceptCb k =>
    cases h
    exact inv_startPort hi acceptCb k
  | startPath path k =>
    cases h
    exact inv_startPath hi hok
  | stop =>
    cases h
    exact inv_stop hi
  | other o =>
    cases h
    exact hi.congr (other_keeps s o).1 (other_keeps s o).2

/-- A call unlinks what was bound, and leaves the path free, exactly if it fits. -/
lemma unlinksBound_iff_fits (hi : Inv s) : UnlinksBound s l ↔ Fits s l := by
  cases l with
  | startPort | other => exact Iff.rfl
  | startPath path k => exact restarts_iff
  | stop => exact exact_iff_due hi

lemma run_total (s : St) (ls : List Label) : ∃ t, run step s ls = some t := by
  induction ls generalizing s with
  | nil => exact ⟨s, rfl⟩
  | cons l ls ih =>
    have hstep : ∃ u, step s l = some u := by cases l <;> exact ⟨_, rfl⟩
    obtain ⟨u, hu⟩ := hstep
    obtain ⟨t, ht⟩ := ih u
    exact ⟨t, run_cons_some.mpr ⟨u, hu, ht⟩⟩

/-- **`stop` unlinks exactly the path that the server has bound**, and the server can be started
with it again, exactly if every path that is bound fits into `sun_path`, and every `stop` comes
first after the last successful `start` with a path, no other `start` having succeeded or unlinked
this path in between. -/
theorem unlinksBound_iff (fs : Name → Option Party) (ls : List Label) :
    Meets step UnlinksBound (init fs) ls ↔ Meets step Fits (init fs) ls := by
  obtain ⟨t, ht⟩ := run_total (init fs) ls
  exact (meets_iff_meets (fun s l t hi hok h => inv_step hi hok h)
    (fun s l t hi _ => (unlinksBound_iff_fits hi).symm) (inv_init fs) ht).symm

/-- `/a`, and a path of 108 bytes. -/
def short : Path := [47, 97]

def long : Path := 47 :: List.replicate 107 97

def granted : TcpCalls := ⟨true, true, true, true⟩

/-- The server is stopped, another process binds the path, and the server is stopped again: it
unlinks what the other one has bound. A path that is too long stays behind, and cannot be bound
again. -/
theorem unlinks_other :
    (∃ s, run step (init fun _ => none) [.startPath short granted, .stop, .other (.bind short)] =
      some s ∧ s.fs short = some .other ∧ (stop s).fs short = none ∧ ¬ UnlinksBound s .stop) ∧
    (startPath (init fun _ => none) long granted).2 = 0 ∧
    (startPath (stop (startPath (init fun _ => none) long granted).1) long granted).2 = -1 ∧
    ¬ ∀ fs ls, Meets step UnlinksBound (init fs) ls := by
  have hrun : run step (init fun _ => none)
      [.startPath short granted, .stop, .other (.bind short)] = some _ := rfl
  refine ⟨⟨_, hrun, by decide, by decide, fun h => ?_⟩, by decide +kernel, by decide +kernel,
    fun h => ?_⟩
  · exact absurd (h.only short rfl (by decide)) (by decide)
  · obtain ⟨-, hmeets⟩ := meets_snoc.mp
      (h (fun _ => none) ([.startPath short granted, .stop, .other (.bind short)] ++ [.stop]))
    exact absurd ((hmeets _ hrun).only short rfl (by decide)) (by decide)

end Hbm.BoundPath
