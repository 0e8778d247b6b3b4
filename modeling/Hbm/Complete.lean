import Hbm.Receive
import Hbm.Stream

/-!
One call of `receiveComplete` on a stream, with every way of cutting the stream into reads.

A label is one call of `recv` or of `poll`. `recv` is answered from the buffer, or it calls
`readv`, and then the label says how much the kernel gave. What was stored and what is still to
come make up the stream the call found.
-/

namespace Hbm.Complete

open Hbm.Size Hbm.BufferedReader Hbm.Syscall Hbm.Receive Hbm.Run
open Hbm.Stream (Answer)

variable {β : Type*}

/-- A connection: `stream` is what the kernel has still to give, now or later. -/
structure Conn (β : Type*) where
  reader : Reader β
  stream : List β

structure St (β : Type*) where
  conn : Conn β
  call : Call β

inductive Label
  | served
  | read (k : Answer) (e : Errno)
  | poll (p : Poll)

/-- The end of the stream comes after its last byte. -/
def possible (total : ℕ) (stream : List β) (k : Answer) : Bool :=
  match k with
  | .eof => stream.isEmpty
  | k => k.possible total stream

def step (s : St β) : Label → Option (St β)
  | .served =>
    let x := recv s.conn.reader s.call.sizeLeft .error
    if s.call.pc = .recv ∧ x.called = false then
      some ⟨{ s.conn with reader := x.reader }, received s.call x .other⟩
    else none
  | .read k e =>
    let x := recv s.conn.reader s.call.sizeLeft (k.readv s.conn.stream)
    if s.call.pc = .recv ∧ x.called = true ∧
        possible (s.call.sizeLeft + bufferSize) s.conn.stream k = true then
      some ⟨⟨x.reader, s.conn.stream.drop (k.readv s.conn.stream).bytes.length⟩,
        received s.call x e⟩
    else none
  | .poll p => if s.call.pc = .poll then some ⟨s.conn, polled s.call p⟩ else none

def start (c : Conn β) (size : ℕ) : St β := ⟨c, receiveComplete size⟩

/-- What is still to come: buffered, and then not read yet. -/
def residual (c : Conn β) : List β := buffered c.reader ++ c.stream

/-- `recv` had bytes to give. -/
def Label.moves : Label → Bool
  | .served => true
  | .read (.data _) _ => true
  | _ => false

/-- Nothing fails: `readv` would block at most, and `poll` reports the socket as readable. -/
def Label.Clean : Label → Prop
  | .read .error e => e = .wouldBlock ∨ e = .again
  | .poll p => p = .ready ∨ p = .failed .intr
  | _ => True

instance (l : Label) : Decidable l.Clean :=
  match l with
  | .served => inferInstanceAs (Decidable True)
  | .read (.data _) _ => inferInstanceAs (Decidable True)
  | .read .eof _ => inferInstanceAs (Decidable True)
  | .read .error _ => inferInstanceAs (Decidable (_ ∨ _))
  | .poll _ => inferInstanceAs (Decidable (_ ∨ _))

/-! ### One step -/

variable {s t : St β} {l : Label}

/-- What one step does. -/
inductive Turn (s t : St β) : Label → Prop
  | more {l : Label} (bytes : List β) (moves : l.moves = true) (ne : bytes ≠ [])
      (le : bytes.length ≤ s.call.sizeLeft) (rest : residual s.conn = bytes ++ residual t.conn)
      (call : t.call = loop { s.call with
        stored := s.call.stored ++ bytes
        sizeLeft := s.call.sizeLeft - bytes.length }) : Turn s t l
  | eof {e : Errno} (found : residual s.conn = []) (rest : residual t.conn = [])
      (call : t.call = { s.call with
        pc := .returned (toInt (sub s.call.size s.call.sizeLeft)) }) : Turn s t (.read .eof e)
  | wait {e : Errno} (rest : residual t.conn = residual s.conn)
      (call : t.call = { s.call with pc := .poll }) : Turn s t (.read .error e)
  | failed {e : Errno} (unclean : ¬ (Label.read .error e).Clean)
      (rest : residual t.conn = residual s.conn)
      (call : t.call = { s.call with pc := .returned (-1) }) : Turn s t (.read .error e)
  | poll {p : Poll} (conn : t.conn = s.conn) (call : t.call = polled s.call p) :
      Turn s t (.poll p)

section

variable {x : Recv β} {k : ReadV β} {c : Call β} {e : Errno}

/-- Bytes were handed on, unless `readv` met the end of the stream or failed. -/
lemma ret_of_delivers {r : Reader β} {n : ℕ} (h : Delivers r n k x) (hn : 0 < n)
    (hne : x.called = true → k ≠ .eof ∧ k ≠ .error) :
    x.ret = x.stored.length ∧ x.stored ≠ [] := by
  have hret : x.ret = x.stored.length := by
    rcases h.ret with hret | ⟨-, -, hcalled, hk⟩
    · exact hret
    · exact absurd hk (hne hcalled).2
  refine ⟨hret, fun hnil => ?_⟩
  obtain ⟨hcalled, hk⟩ := h.eof (by rw [hret, hnil]; rfl) hn
  exact (hne hcalled).1 hk

/-- A `readv` without bytes leaves nothing stored and nothing buffered. -/
lemma nothing_of_delivers {r : Reader β} {n : ℕ} (h : Delivers r n k x) (hcalled : x.called = true)
    (hk : k.bytes = []) : buffered r = [] ∧ x.stored = [] ∧ buffered x.reader = [] := by
  have hr := (h.called hcalled).1
  have hstream := h.stream
  rw [if_pos hcalled, hr, hk] at hstream
  exact ⟨hr, List.append_eq_nil_iff.mp hstream.symm⟩

lemma eof_of_delivers {r : Reader β} {n : ℕ} (h : Delivers r n .eof x) (hcalled : x.called = true) :
    x.ret = 0 ∧ buffered r = [] ∧ x.stored = [] ∧ buffered x.reader = [] := by
  have hnil := nothing_of_delivers h hcalled rfl
  rcases h.ret with hret | ⟨-, -, -, hk⟩
  · exact ⟨by rw [hret, hnil.2.1]; rfl, hnil⟩
  · cases hk

lemma error_of_delivers {r : Reader β} {n : ℕ} (h : Delivers r n .error x) (hn : 0 < n)
    (hcalled : x.called = true) : x.ret = -1 ∧ x.stored = [] := by
  have hst := (nothing_of_delivers h hcalled rfl).2.1
  rcases h.ret with hret | ⟨hret, -⟩
  · have hk := (h.eof (by rw [hret, hst]; rfl) hn).2
    cases hk
  · exact ⟨hret, hst⟩

lemma received_more (hret : x.ret = x.stored.length) (hne : x.stored ≠ [])
    (hle : x.stored.length ≤ c.sizeLeft) (hleft : c.sizeLeft ≤ ssizeMax) :
    received c x e = loop { c with
      stored := c.stored ++ x.stored
      sizeLeft := c.sizeLeft - x.stored.length } := by
  have hmax := ssizeMax_lt
  have hpos := List.length_pos_iff.mpr hne
  unfold received
  simp only [if_pos (show 0 < x.ret by omega)]
  rw [hret, toSize_natCast (by omega), sub_eq (by omega) hle]

lemma received_eof (hret : x.ret = 0) (hst : x.stored = []) :
    received c x e = { c with pc := .returned (toInt (sub c.size c.sizeLeft)) } := by
  simp [received, hret, hst]

lemma received_error (hret : x.ret = -1) (hst : x.stored = []) :
    received c x e = { c with
      pc := if e = .wouldBlock ∨ e = .again then .poll else .returned (-1) } := by
  by_cases hwait : e = .wouldBlock ∨ e = .again <;> simp [received, hret, hst, hwait]

end

lemma turn_served (hw : Wf s.conn.reader) (hleft : s.call.sizeLeft ≤ ssizeMax)
    (hpos : s.call.pc = .recv → 0 < s.call.sizeLeft) (h : step s .served = some t) :
    Wf t.conn.reader ∧ Turn s t .served := by
  simp only [step] at h
  split at h
  · rename_i hpc
    cases h
    have hd := recv_delivers (k := ReadV.error) hw hleft trivial
    obtain ⟨hret, hne⟩ := ret_of_delivers hd (hpos hpc.1) fun hc => by rw [hpc.2] at hc; cases hc
    refine ⟨hd.wf, .more _ rfl hne hd.short ?_ (received_more hret hne hd.short hleft)⟩
    have hstream := hd.stream
    rw [hpc.2, if_neg Bool.false_ne_true, List.append_nil] at hstream
    simp only [residual]
    rw [hstream, List.append_assoc]
  · cases h

lemma possible_fits {k : Answer} {total : ℕ} {stream : List β}
    (h : possible total stream k = true) : (k.readv stream).Fits total := by
  cases k with
  | eof => trivial
  | data n => exact Answer.readv_fits h
  | error => trivial

/-- What `readv` took and what is left of the stream. -/
lemma residual_read {c : Conn β} {n : ℕ} {k : Answer} {x : Recv β}
    (h : Delivers c.reader n (k.readv c.stream) x) (hcalled : x.called = true) :
    residual c =
      x.stored ++ residual ⟨x.reader, c.stream.drop (k.readv c.stream).bytes.length⟩ := by
  have hstream := h.stream
  rw [if_pos hcalled] at hstream
  calc residual c
      = buffered c.reader ++ ((k.readv c.stream).bytes ++
          c.stream.drop (k.readv c.stream).bytes.length) := by
        rw [Answer.bytes_append_drop]
        rfl
    _ = _ := by
        rw [← List.append_assoc, hstream, List.append_assoc]
        rfl

lemma turn_read {k : Answer} {e : Errno} (hw : Wf s.conn.reader)
    (hleft : s.call.sizeLeft ≤ ssizeMax) (hpos : s.call.pc = .recv → 0 < s.call.sizeLeft)
    (h : step s (.read k e) = some t) : Wf t.conn.reader ∧ Turn s t (.read k e) := by
  simp only [step] at h
  split at h
  · rename_i hpc
    obtain ⟨hrecv, hcalled, hk⟩ := hpc
    cases h
    have hd := recv_delivers hw hleft (possible_fits hk)
    have hrest := residual_read hd hcalled
    refine ⟨hd.wf, ?_⟩
    cases k with
    | data n =>
      obtain ⟨hret, hne⟩ := ret_of_delivers hd (hpos hrecv) fun _ => ⟨nofun, nofun⟩
      exact .more _ rfl hne hd.short hrest (received_more hret hne hd.short hleft)
    | eof =>
      have hnil : s.conn.stream = [] := List.isEmpty_iff.mp hk
      obtain ⟨hret, hbuf, hst, hbuf'⟩ := eof_of_delivers hd hcalled
      refine .eof ?_ ?_ (received_eof hret hst)
      · rw [residual, hbuf, hnil]
        rfl
      · rw [residual, hbuf', hnil]
        rfl
    | error =>
      obtain ⟨hret, hst⟩ := error_of_delivers hd (hpos hrecv) hcalled
      rw [hst, List.nil_append] at hrest
      by_cases hwait : e = .wouldBlock ∨ e = .again
      · exact .wait hrest.symm ((received_error hret hst).trans (by rw [if_pos hwait]))
      · exact .failed hwait hrest.symm ((received_error hret hst).trans (by rw [if_neg hwait]))
  · cases h

lemma turn_of_step (hw : Wf s.conn.reader) (hleft : s.call.sizeLeft ≤ ssizeMax)
    (hpos : s.call.pc = .recv → 0 < s.call.sizeLeft) (h : step s l = some t) :
    Wf t.conn.reader ∧ Turn s t l := by
  cases l with
  | served => exact turn_served hw hleft hpos h
  | read k e => exact turn_read hw hleft hpos h
  | poll p =>
    simp only [step] at h
    split at h
    · cases h
      exact ⟨hw, .poll rfl rfl⟩
    · cases h

/-! ### Whole calls -/

/-- Where a call of `size` bytes stands that found the stream `all`. -/
structure Inv (size : ℕ) (all : List β) (s : St β) : Prop where
  wf : Wf s.conn.reader
  size_eq : s.call.size = size
  split : s.call.stored ++ residual s.conn = all
  left : s.call.stored.length + s.call.sizeLeft = size
  loop : s.call.pc = .recv ∨ s.call.pc = .poll → 0 < s.call.sizeLeft
  /-- the call returns when it is complete, at the end of the stream, or with -1 -/
  returned : ∀ v, s.call.pc = .returned v →
    (s.call.sizeLeft = 0 ∧ v = size) ∨
      (0 < s.call.sizeLeft ∧ residual s.conn = [] ∧ v = toInt s.call.stored.length) ∨
      (0 < s.call.sizeLeft ∧ v = -1)

/-- It returns with fewer bytes only at the end of the stream. -/
def Unfailed (s : St β) : Prop :=
  ∀ v, s.call.pc = .returned v → 0 < s.call.sizeLeft →
    residual s.conn = [] ∧ v = toInt s.call.stored.length

variable {size : ℕ} {all : List β}

lemma loop_inv {c : Conn β} {k : Call β} (hmax : size ≤ ssizeMax) (hw : Wf c.reader)
    (hsize : k.size = size) (hsplit : k.stored ++ residual c = all)
    (hleft : k.stored.length + k.sizeLeft = size) :
    Inv size all ⟨c, loop k⟩ ∧ Unfailed ⟨c, loop k⟩ := by
  by_cases hzero : k.sizeLeft = 0
  · have hpc : (loop k).pc = .returned size := by simp [loop, hzero, hsize, toSsize_eq hmax]
    refine ⟨⟨hw, hsize, hsplit, hleft, fun h => ?_, fun v hv => ?_⟩, fun v _ hpos => ?_⟩
    · rw [hpc] at h
      rcases h with h | h <;> cases h
    · exact Or.inl ⟨hzero, Pc.returned.inj (hv.symm.trans hpc)⟩
    · exact absurd hzero (Nat.pos_iff_ne_zero.mp hpos)
  · have hpc : (loop k).pc = .recv := by simp [loop, hzero]
    have hno : ∀ v, (loop k).pc ≠ .returned v := by simp [hpc]
    exact ⟨⟨hw, hsize, hsplit, hleft, fun _ => Nat.pos_of_ne_zero hzero,
      fun v hv => absurd hv (hno v)⟩, fun v hv => absurd hv (hno v)⟩

lemma start_inv {c : Conn β} (hmax : size ≤ ssizeMax) (hw : Wf c.reader) :
    Inv size (residual c) (start c size) ∧ Unfailed (start c size) :=
  loop_inv hmax hw rfl rfl (Nat.zero_add _)

lemma pc_of_step (h : step s l = some t) : s.call.pc = .recv ∨ s.call.pc = .poll := by
  cases l with
  | served =>
    simp only [step] at h
    split at h
    · rename_i hpc
      exact Or.inl hpc.1
    · cases h
  | read k e =>
    simp only [step] at h
    split at h
    · rename_i hpc
      exact Or.inl hpc.1
    · cases h
  | poll p =>
    simp only [step] at h
    split at h
    · rename_i hpc
      exact Or.inr hpc
    · cases h

/-- The call gives up. -/
lemma failed_inv (hi : Inv size all s) {c : Conn β} (hw : Wf c.reader)
    (hrest : residual c = residual s.conn) (hpos : 0 < s.call.sizeLeft) :
    Inv size all ⟨c, { s.call with pc := .returned (-1) }⟩ := by
  refine ⟨hw, hi.size_eq, by rw [hrest, hi.split], hi.left, fun h => ?_, fun v hv => ?_⟩
  · rcases h with h | h <;> cases h
  · cases hv
    exact Or.inr (Or.inr ⟨hpos, rfl⟩)

lemma wait_inv (hi : Inv size all s) {c : Conn β} (hw : Wf c.reader)
    (hrest : residual c = residual s.conn) (hpos : 0 < s.call.sizeLeft) :
    Inv size all ⟨c, { s.call with pc := .poll }⟩ :=
  ⟨hw, hi.size_eq, by rw [hrest, hi.split], hi.left, fun _ => hpos, nofun⟩

/-- The stream has ended. -/
lemma eof_inv (hmax : size ≤ ssizeMax) (hi : Inv size all s) {c : Conn β} (hw : Wf c.reader)
    (hfound : residual s.conn = []) (hrest : residual c = []) (hpos : 0 < s.call.sizeLeft) :
    Inv size all ⟨c, { s.call with
        pc := .returned (toInt (sub s.call.size s.call.sizeLeft)) }⟩ ∧
      Unfailed ⟨c, { s.call with
        pc := .returned (toInt (sub s.call.size s.call.sizeLeft)) }⟩ := by
  have hlt := ssizeMax_lt
  have hleft := hi.left
  have hsize := hi.size_eq
  have hgot : sub s.call.size s.call.sizeLeft = s.call.stored.length := by
    rw [sub_eq (by omega) (by omega)]
    omega
  refine ⟨⟨hw, hsize, by rw [hrest, ← hfound, hi.split], hleft, fun h => ?_, fun v hv => ?_⟩,
    fun v hv _ => ?_⟩
  · rcases h with h | h <;> cases h
  · exact Or.inr (Or.inl ⟨hpos, hrest, by rw [← Pc.returned.inj hv, hgot]⟩)
  · exact ⟨hrest, by rw [← Pc.returned.inj hv, hgot]⟩

lemma polled_inv (hmax : size ≤ ssizeMax) (hi : Inv size all s) (hpc : s.call.pc = .poll)
    (p : Poll) : Inv size all ⟨s.conn, polled s.call p⟩ ∧
      ((Label.poll p).Clean → Unfailed ⟨s.conn, polled s.call p⟩) := by
  unfold polled
  by_cases hintr : p = .failed .intr
  · rw [if_pos hintr]
    exact ⟨hi, fun _ v hv => by rw [hpc] at hv; cases hv⟩
  rw [if_neg hintr]
  by_cases hret : p.ret = 1
  · rw [if_neg (not_not.mpr hret)]
    have hloop := loop_inv hmax hi.wf hi.size_eq hi.split hi.left
    exact ⟨hloop.1, fun _ => hloop.2⟩
  · rw [if_pos hret]
    refine ⟨failed_inv hi hi.wf rfl (hi.loop (Or.inr hpc)), fun hclean => ?_⟩
    rcases hclean with rfl | hp
    · exact absurd rfl hret
    · exact absurd hp hintr

lemma step_inv (hmax : size ≤ ssizeMax) (hi : Inv size all s) (h : step s l = some t) :
    Inv size all t ∧ (l.Clean → Unfailed t) := by
  have hleft := hi.left
  have hpos := hi.loop (pc_of_step h)
  obtain ⟨hw, hturn⟩ := turn_of_step hi.wf (by omega) (fun _ => hpos) h
  obtain ⟨c, k⟩ := t
  cases hturn with
  | more bytes _ _ hle hrest hcall =>
    obtain rfl : k = _ := hcall
    have hsplit : (s.call.stored ++ bytes) ++ residual c = all := by
      rw [List.append_assoc, ← hrest, hi.split]
    have hlen : (s.call.stored ++ bytes).length + (s.call.sizeLeft - bytes.length) = size := by
      rw [List.length_append]
      omega
    have hloop := loop_inv (k := { s.call with
      stored := s.call.stored ++ bytes
      sizeLeft := s.call.sizeLeft - bytes.length }) hmax hw hi.size_eq hsplit hlen
    exact ⟨hloop.1, fun _ => hloop.2⟩
  | eof hfound hrest hcall =>
    obtain rfl : k = _ := hcall
    have heof := eof_inv hmax hi hw hfound hrest hpos
    exact ⟨heof.1, fun _ => heof.2⟩
  | wait hrest hcall =>
    obtain rfl : k = _ := hcall
    exact ⟨wait_inv hi hw hrest hpos, fun _ => nofun⟩
  | failed hno hrest hcall =>
    obtain rfl : k = _ := hcall
    exact ⟨failed_inv hi hw hrest hpos, fun hclean => absurd hclean hno⟩
  | poll hconn hcall =>
    obtain rfl : c = _ := hconn
    obtain rfl : k = _ := hcall
    have hpc : s.call.pc = .poll := by
      simp only [step] at h
      split at h
      · assumption
      · cases h
    exact polled_inv hmax hi hpc _

/-- What a call returned and stored, and the connection afterwards. -/
structure Result (β : Type*) where
  retVal : ℤ
  stored : List β
  conn : Conn β

/-- A call with the answers it gets; `none` if they are not possible, or the call is still
waiting after the last one. -/
def complete (c : Conn β) (size : ℕ) (ls : List Label) : Option (Result β) :=
  (run step (start c size) ls).bind fun s =>
    match s.call.pc with
    | .returned v => some ⟨v, s.call.stored, s.conn⟩
    | _ => none

section

variable {c : Conn β} {ls : List Label} {x : Result β}

lemma complete_some : complete c size ls = some x ↔
    ∃ s, run step (start c size) ls = some s ∧ s.call.pc = .returned x.retVal ∧
      s.call.stored = x.stored ∧ s.conn = x.conn := by
  unfold complete
  rw [Option.bind_eq_some_iff]
  refine exists_congr fun s => and_congr_right fun _ => ?_
  obtain ⟨v, stored, conn⟩ := x
  split
  · rename_i w hw
    simp [hw]
  · rename_i hno
    simp only [reduceCtorEq, false_iff, not_and]
    exact fun hv => absurd hv (hno v)

lemma inv_of_run (hmax : size ≤ ssizeMax) (hw : Wf c.reader)
    (h : run step (start c size) ls = some s) : Inv size (residual c) s :=
  run_inv (fun _ _ _ hi ht => (step_inv hmax hi ht).1) (start_inv hmax hw).1 h

/-- What a call does when nothing fails. -/
lemma complete_clean (hmax : size ≤ ssizeMax) (hw : Wf c.reader) (hls : ∀ l ∈ ls, l.Clean)
    (h : complete c size ls = some x) :
    Wf x.conn.reader ∧ x.stored ++ residual x.conn = residual c ∧
      ((x.stored.length = size ∧ x.retVal = size) ∨
        (x.stored.length < size ∧ residual x.conn = [] ∧ x.retVal = toInt x.stored.length)) := by
  obtain ⟨s, hs, hpc, hst, hconn⟩ := complete_some.mp h
  have hstep : ∀ s l t, Inv size (residual c) s ∧ Unfailed s → Label.Clean l →
      step s l = some t → Inv size (residual c) t ∧ Unfailed t :=
    fun s l t hi hl ht => ⟨(step_inv hmax hi.1 ht).1, (step_inv hmax hi.1 ht).2 hl⟩
  obtain ⟨hi, hu⟩ := run_inv_of_labels hstep (start_inv hmax hw) hls hs
  have hleft := hi.left
  rw [← hst, ← hconn]
  refine ⟨hi.wf, hi.split, ?_⟩
  rcases Nat.eq_zero_or_pos s.call.sizeLeft with hzero | hpos
  · refine Or.inl ⟨by omega, ?_⟩
    rcases hi.returned _ hpc with ⟨-, hv⟩ | ⟨hpos, -⟩ | ⟨hpos, -⟩
    · exact hv
    · omega
    · omega
  · obtain ⟨hend, hv⟩ := hu _ hpc hpos
    exact Or.inr ⟨by omega, hend, hv⟩

/-- The stream decides what a call stores and returns when nothing fails. -/
lemma complete_eq (hmax : size ≤ ssizeMax) (hw : Wf c.reader) (hls : ∀ l ∈ ls, l.Clean)
    (h : complete c size ls = some x) :
    Wf x.conn.reader ∧ x.stored = (residual c).take size ∧
      residual x.conn = (residual c).drop size ∧
      x.retVal = if size ≤ (residual c).length then (size : ℤ) else toInt (residual c).length := by
  obtain ⟨hwf, hsplit, hret⟩ := complete_clean hmax hw hls h
  have hlen := congrArg List.length hsplit
  rw [List.length_append] at hlen
  rcases hret with ⟨hst, hv⟩ | ⟨hshort, hend, hv⟩
  · refine ⟨hwf, ?_, ?_, ?_⟩
    · rw [← hsplit, ← hst, List.take_left]
    · rw [← hsplit, ← hst, List.drop_left]
    · rw [if_pos (by omega), hv]
  · rw [hend, List.append_nil] at hsplit
    rw [hend, List.length_nil] at hlen
    refine ⟨hwf, ?_, ?_, ?_⟩
    · rw [List.take_of_length_le (by omega), hsplit]
    · rw [List.drop_eq_nil_of_le (by omega), hend]
    · rw [if_neg (by omega), hv, hsplit]

lemma polled_stored (k : Call β) (p : Poll) : (polled k p).stored = k.stored := by
  unfold polled
  split
  · rfl
  split <;> rfl

lemma step_moves (hmax : size ≤ ssizeMax) (hi : Inv size all s) (h : step s l = some t) :
    s.call.stored.length + (if l.moves then 1 else 0) ≤ t.call.stored.length := by
  have hleft := hi.left
  have hpos := hi.loop (pc_of_step h)
  obtain ⟨-, hturn⟩ := turn_of_step hi.wf (by omega) (fun _ => hpos) h
  cases hturn with
  | more bytes hmoves hne _ _ hcall =>
    have hlen := List.length_pos_iff.mpr hne
    rw [hcall, hmoves]
    simp only [loop, List.length_append, if_true]
    omega
  | poll _ hcall =>
    rw [hcall, polled_stored]
    exact Nat.le_refl _
  | eof _ _ hcall | wait _ hcall | failed _ _ hcall =>
    rw [hcall]
    exact Nat.le_refl _

/-- Every call of `recv` that had bytes to give stored one at least. -/
lemma moves_le (hmax : size ≤ ssizeMax) (hw : Wf c.reader)
    (h : run step (start c size) ls = some s) : ls.countP Label.moves ≤ s.call.stored.length := by
  induction ls using List.reverseRecOn generalizing s with
  | nil => exact Nat.zero_le _
  | append_singleton ls l ih =>
    obtain ⟨u, hu, hl⟩ := run_snoc_some.mp h
    have hmoves := step_moves hmax (inv_of_run hmax hw hu) hl
    have hcount := ih hu
    rw [List.countP_append, List.countP_singleton]
    omega

/-- Whether `recv` calls `readv` does not depend on what this answers. -/
lemma recv_called (r : Reader β) (n : ℕ) (k k' : ReadV β) :
    (recv r n k).called = (recv r n k').called := by
  unfold recv
  simp only
  split
  · rfl
  split <;> rfl

/-- `recv` can give bytes, or report the end of the stream. -/
lemma can_move (hpc : s.call.pc = .recv) :
    ∃ l, l.Clean ∧ (l.moves = true ∨ l = .read .eof .other) ∧ ∃ t, step s l = some t := by
  cases hcalled : (recv s.conn.reader s.call.sizeLeft .error).called with
  | false =>
    exact ⟨.served, trivial, Or.inl rfl, _, if_pos ⟨hpc, hcalled⟩⟩
  | true =>
    have hcalled' : ∀ k, (recv s.conn.reader s.call.sizeLeft k).called = true :=
      fun k => (recv_called _ _ k _).trans hcalled
    by_cases hnil : s.conn.stream = []
    · have hk : possible (s.call.sizeLeft + bufferSize) s.conn.stream .eof = true :=
        List.isEmpty_iff.mpr hnil
      exact ⟨.read .eof .other, trivial, Or.inr rfl, _, if_pos ⟨hpc, hcalled' _, hk⟩⟩
    · have hlen := List.length_pos_iff.mpr hnil
      have hk : possible (s.call.sizeLeft + bufferSize) s.conn.stream (.data 1) = true := by
        simp only [possible, Answer.possible, decide_eq_true_eq]
        exact ⟨Nat.one_pos, by unfold bufferSize; omega, hlen⟩
      exact ⟨.read (.data 1) .other, trivial, Or.inl rfl, _, if_pos ⟨hpc, hcalled' _, hk⟩⟩

/-- Wherever the call stands, it can go on until it returns. -/
lemma can_return (hmax : size ≤ ssizeMax) (hi : Inv size all s) :
    ∃ ms t v, (∀ l ∈ ms, l.Clean) ∧ run step s ms = some t ∧ t.call.pc = .returned v := by
  induction hn : s.call.sizeLeft using Nat.strongRecOn generalizing s with
  | _ n ih =>
    have hrecv : ∀ {s : St β}, Inv size all s → s.call.sizeLeft = n → s.call.pc = .recv →
        ∃ ms t v, (∀ l ∈ ms, l.Clean) ∧ run step s ms = some t ∧ t.call.pc = .returned v := by
      intro s hi hn hpc
      obtain ⟨l, hclean, hmove, t, hl⟩ := can_move hpc
      have hit := (step_inv hmax hi hl).1
      rcases hmove with hmove | rfl
      · have hless := step_moves hmax hi hl
        rw [hmove, if_pos rfl] at hless
        have hs := hi.left
        have ht := hit.left
        obtain ⟨ms, u, v, hms, hu, hv⟩ := ih t.call.sizeLeft (by omega) hit rfl
        refine ⟨l :: ms, u, v, ?_, run_cons_some.mpr ⟨t, hl, hu⟩, hv⟩
        exact List.forall_mem_cons.mpr ⟨hclean, hms⟩
      · have hleft := hi.left
        obtain ⟨-, hturn⟩ := turn_of_step hi.wf (by omega) (fun _ => hi.loop (Or.inl hpc)) hl
        cases hturn with
        | more _ hno => cases hno
        | eof _ _ hcall =>
          have hms : ∀ l ∈ [Label.read .eof .other], l.Clean := by simpa using hclean
          exact ⟨_, t, _, hms, run_cons_some.mpr ⟨t, hl, rfl⟩, by rw [hcall]⟩
    cases hpc : s.call.pc with
    | recv => exact hrecv hi hn hpc
    | poll =>
      have hl : step s (.poll .ready) = some ⟨s.conn, polled s.call .ready⟩ := by
        simp only [step, if_pos hpc]
      have hpos := hi.loop (Or.inr hpc)
      have hpc' : (polled s.call .ready).pc = .recv := by
        simp [polled, Poll.ret, loop, Nat.pos_iff_ne_zero.mp hpos]
      obtain ⟨ms, u, v, hms, hu, hv⟩ := hrecv (step_inv hmax hi hl).1
        (by rw [polled_sizeLeft, hn]) hpc'
      refine ⟨.poll .ready :: ms, u, v, ?_, run_cons_some.mpr ⟨_, hl, hu⟩, hv⟩
      exact List.forall_mem_cons.mpr ⟨Or.inl rfl, hms⟩
    | returned v => exact ⟨[], s, v, nofun, rfl, hpc⟩

end

end Hbm.Complete
