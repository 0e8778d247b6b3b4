import Hbm.Netlink
import Mathlib.Logic.Relation

/-!
The netlink parser and the end of the datagram.

The lengths are checked against what is left, and then the aligned length is subtracted. In
the loop over the messages this is done in `size_t`: a last message that ends inside the
datagram, but whose padding does not, wraps the rest around to almost `2^64`, and the next
header is read outside. The attribute loop counts in `int` and stops there. The structures
behind the headers are read without a check.
-/

namespace Hbm.Datagram

open Hbm.Bytes Hbm.Netlink Relation

/-- A call of the parser comes to an end, and it stays inside the datagram if and only if `P`. -/
def Decides {α : Type} (r : Except Fault α) (P : Prop) : Prop :=
  r ≠ .error .fuel ∧ (r.isOk = true ↔ P)

section Decides

variable {α β : Type} {P Q : Prop} {r : Except Fault α} {f : α → Except Fault β}

lemma decides_ok {a : α} (h : P) : Decides (.ok a) P :=
  ⟨nofun, iff_of_true rfl h⟩

lemma decides_outside (h : ¬ P) : Decides (.error .outside : Except Fault α) P :=
  ⟨nofun, iff_of_false nofun h⟩

lemma decides_inside {o : Option α} (h : o.isSome = true ↔ P) : Decides (inside o) P := by
  rcases o with _ | a
  · exact decides_outside fun hp => nomatch h.mpr hp
  · exact decides_ok (h.mp rfl)

lemma Decides.congr (hr : Decides r P) (h : P ↔ Q) : Decides r Q := ⟨hr.1, hr.2.trans h⟩

/-- A call that goes on only when it is inside. -/
lemma Decides.bind (hr : Decides r P) (hQ : Q → P)
    (hf : ∀ a, r = .ok a → P → Decides (f a) Q) : Decides (r >>= f) Q := by
  rcases r with e | a
  · cases e with
    | outside => exact decides_outside fun hq => nomatch hr.2.mpr (hQ hq)
    | fuel => exact absurd rfl hr.1
  · exact hf a rfl (hr.2.mp rfl)

end Decides

/-- What holds along a relation holds at its beginning and along it from every next place. -/
lemma forall_reflTransGen {α : Type} {R : α → α → Prop} {F : α → Prop} {a : α} :
    (∀ b, ReflTransGen R a b → F b) ↔ F a ∧ ∀ a', R a a' → ∀ b, ReflTransGen R a' b → F b := by
  constructor
  · exact fun h => ⟨h a .refl, fun a' ha b hb => h b (.head ha hb)⟩
  · rintro ⟨ha, h⟩ b hb
    rcases ReflTransGen.cases_head_iff.mp hb with rfl | ⟨a', ha', hb⟩
    · exact ha
    · exact h a' ha' b hb

/-! ### What has to lie inside -/

/-- An attribute with its length and type, where `rtl` bytes are left of the message. -/
def AttrAt (p : List UInt8 × ℤ) (len type : ℕ) : Prop :=
  load16 p.1 0 = some len ∧ load16 p.1 2 = some type ∧ 4 ≤ p.2 ∧ 4 ≤ len ∧ (len : ℤ) ≤ p.2

def NextAttr (p p' : List UInt8 × ℤ) : Prop :=
  ∃ len type, AttrAt p len type ∧ p' = (p.1.drop (align len), p.2 - align len)

/-- An address that is handed over has its four bytes. -/
def AttrFits (cb : Bool) (p : List UInt8 × ℤ) : Prop :=
  ∀ len, AttrAt p len ifaLocal → cb = true → 8 ≤ p.1.length

def AttrsFit (cb : Bool) (p : List UInt8 × ℤ) : Prop :=
  ∀ q, ReflTransGen NextAttr p q → AttrFits cb q

/-- The fields that are read of the structure behind the header. -/
def PayloadFits (cb : Bool) (nh : List UInt8) (len type : ℕ) : Prop :=
  (type = rtmNewlink → 32 ≤ nh.length) ∧ (type = rtmDellink → 28 ≤ nh.length) ∧
    (type = rtmNewaddr ∨ type = rtmDeladdr → 17 ≤ nh.length ∧
      (load8 nh 16 = some afInet → AttrsFit cb (nh.drop 24, len - 24)))

/-- A message that is looked at: it is no end mark, and its length lies inside. -/
def MessageAt (nh : List UInt8) (len type : ℕ) : Prop :=
  load32 nh 0 = some len ∧ load16 nh 4 = some type ∧ 16 ≤ len ∧ len ≤ nh.length ∧
    type ≠ nlmsgDone ∧ type ≠ nlmsgError

def NextMessage (nh nh' : List UInt8) : Prop :=
  ∃ len type, MessageAt nh len type ∧ nh' = nh.drop (align len)

/-- The padding of the message and what is read of it lie inside. -/
def MessageFits (cb : Bool) (nh : List UInt8) : Prop :=
  ∀ len type, MessageAt nh len type → align len ≤ nh.length ∧ PayloadFits cb nh len type

/-- The condition on the datagram: every message before the first end mark fits. -/
def Fits (cb : Bool) (buf : List UInt8) : Prop :=
  ∀ nh, ReflTransGen NextMessage buf nh → MessageFits cb nh

/-! ### The attributes -/

variable {cb : Bool} {event : Event} {nh rth : List UInt8} {len type : ℕ} {rtl : ℤ}

lemma loadAddress_isSome {p : List UInt8} {off : ℕ} :
    (loadAddress p off).isSome = true ↔ off + 4 ≤ p.length := by
  have hlen : ((p.drop off).take 4).length = min 4 (p.length - off) := by simp
  unfold loadAddress
  split
  · rename_i h
    rw [h] at hlen
    simp only [List.length_cons, List.length_nil] at hlen
    simp only [Option.isSome_some, true_iff]
    omega
  · rename_i h
    simp only [Option.isSome_none, Bool.false_eq_true, false_iff]
    intro hle
    obtain ⟨a, b, c, d, h4⟩ : ∃ a b c d, (p.drop off).take 4 = [a, b, c, d] := by
      apply List.length_eq_four.mp
      omega
    exact h a b c d h4

lemma ifaLocalItems_decides (hnh : 24 ≤ nh.length) :
    Decides (ifaLocalItems cb event nh rth type)
      (type = ifaLocal → cb = true → 8 ≤ rth.length) := by
  unfold ifaLocalItems
  by_cases h : type = ifaLocal ∧ cb = true
  · rw [if_pos h]
    have hindex : Decides (inside (load32 nh 20)) True :=
      decides_inside (iff_of_true (load32_isSome.mpr hnh) trivial)
    refine hindex.bind (fun _ => trivial) fun _ _ _ => ?_
    refine (decides_inside loadAddress_isSome).bind (fun hq => hq h.1 h.2) fun _ _ hp => ?_
    exact decides_ok fun _ _ => hp
  · rw [if_neg h]
    exact decides_ok fun h1 h2 => absurd ⟨h1, h2⟩ h

lemma attrsFit_of_none (h : ∀ len type, ¬ AttrAt (rth, rtl) len type) : AttrsFit cb (rth, rtl) := by
  rw [AttrsFit, forall_reflTransGen]
  exact ⟨fun len ha => absurd ha (h len _), fun _ ⟨len, type, ha, _⟩ => absurd ha (h len type)⟩

lemma attrsFit_of_attrAt (ha : AttrAt (rth, rtl) len type) :
    AttrsFit cb (rth, rtl) ↔ (type = ifaLocal → cb = true → 8 ≤ rth.length) ∧
      AttrsFit cb (rth.drop (align len), rtl - align len) := by
  have huniq : ∀ len' type', AttrAt (rth, rtl) len' type' → len' = len ∧ type' = type :=
    fun len' type' h => ⟨Option.some.inj (h.1.symm.trans ha.1),
      Option.some.inj (h.2.1.symm.trans ha.2.1)⟩
  rw [AttrsFit, forall_reflTransGen]
  refine and_congr ⟨fun h ht => ?_, fun h len' ha' => h (huniq len' _ ha').2.symm⟩
    ⟨fun h => h _ ⟨len, type, ha, rfl⟩, ?_⟩
  · subst ht
    exact h len ha
  · rintro h p' ⟨len', type', ha', rfl⟩
    obtain ⟨rfl, rfl⟩ := huniq len' type' ha'
    exact h

/-- The attribute loop. What is left of the message never exceeds what is left of the
datagram. -/
lemma attributes_decides (fuel : ℕ) (hfuel : rth.length < fuel) (hrtl : rtl ≤ rth.length)
    (hnh : 4 ≤ rtl → 24 ≤ nh.length) :
    Decides (attributes cb event nh fuel rth rtl) (AttrsFit cb (rth, rtl)) := by
  induction fuel generalizing rth rtl with
  | zero => omega
  | succ fuel ih =>
    rw [attributes]
    by_cases h4 : rtl ≠ 0 ∧ 4 ≤ rtl
    swap
    · rw [if_neg h4]
      refine decides_ok (attrsFit_of_none fun _ _ ha => h4 ?_)
      have hleft : 4 ≤ rtl := ha.2.2.1
      exact ⟨by omega, hleft⟩
    rw [if_pos h4]
    have hinside : (load16 rth 0).isSome = true ∧ (load16 rth 2).isSome = true :=
      ⟨load16_isSome.mpr (by omega), load16_isSome.mpr (by omega)⟩
    obtain ⟨len, hlen⟩ := Option.isSome_iff_exists.mp hinside.1
    obtain ⟨type, htype⟩ := Option.isSome_iff_exists.mp hinside.2
    rw [hlen, htype, inside_some, inside_some, ok_bind]
    by_cases hle : 4 ≤ len ∧ (len : ℤ) ≤ rtl
    swap
    · rw [if_neg hle]
      refine decides_ok (attrsFit_of_none fun len' _ ha => hle ?_)
      obtain rfl : len = len' := Option.some.inj (hlen.symm.trans ha.1)
      exact ha.2.2.2
    rw [if_pos hle, ok_bind]
    have ha : AttrAt (rth, rtl) len type := ⟨hlen, htype, h4.2, hle⟩
    have hlt : len < 2 ^ 31 := (load16_lt hlen).trans (by decide)
    have halign := le_align hlt
    have hnext : Decides (attributes cb event nh fuel (rth.drop (align len)) (rtl - align len))
        (AttrsFit cb (rth.drop (align len), rtl - align len)) :=
      ih (by simp only [List.length_drop]; omega) (by simp only [List.length_drop]; omega)
        (fun h => hnh (by omega))
    refine Decides.congr ?_ (attrsFit_of_attrAt ha).symm
    refine (ifaLocalItems_decides (hnh h4.2)).bind And.left fun items _ hp => ?_
    refine hnext.bind And.right fun rest _ hq => ?_
    exact decides_ok ⟨hp, hq⟩

/-! ### One message -/

lemma notify_decides (hnh : 24 ≤ nh.length) : Decides (notify cb event nh) True := by
  unfold notify
  cases cb with
  | false => exact decides_ok trivial
  | true =>
    have hindex : Decides (inside (load32 nh 20)) True :=
      decides_inside (iff_of_true (load32_isSome.mpr hnh) trivial)
    exact hindex.bind id fun _ _ _ => decides_ok trivial

lemma newlink_decides : Decides (newlink cb nh) (32 ≤ nh.length) := by
  refine (decides_inside load32_isSome).bind id fun change _ hle => ?_
  split
  · have hflags : Decides (inside (load32 nh 24)) (32 ≤ nh.length) :=
      decides_inside (iff_of_true (load32_isSome.mpr (by omega)) hle)
    refine hflags.bind id fun flags _ _ => ?_
    exact (notify_decides (by omega)).congr (iff_of_true trivial hle)
  · exact decides_ok hle

lemma dellink_decides : Decides (dellink cb nh) (28 ≤ nh.length) := by
  refine (decides_inside load32_isSome).bind id fun flags _ hle => ?_
  split
  · exact decides_ok hle
  · exact (notify_decides (by omega)).congr (iff_of_true trivial hle)

lemma addr_decides (hlen : len < 2 ^ 31) (hle : len ≤ nh.length) :
    Decides (addr cb event nh len) (17 ≤ nh.length ∧
      (load8 nh 16 = some afInet → AttrsFit cb (nh.drop 24, len - 24))) := by
  refine (decides_inside load8_isSome).bind And.left fun family hfamily hle' => ?_
  have hload : load8 nh 16 = some family := by
    rcases ho : load8 nh 16 with _ | a <;> rw [ho] at hfamily <;> cases hfamily
    rfl
  rw [hload, Option.some_inj]
  split
  · rename_i hf
    rw [ifaPayload_eq hlen]
    have hattrs : Decides (attributes cb event nh ((nh.drop 24).length + 1) (nh.drop 24) (len - 24))
        (AttrsFit cb (nh.drop 24, len - 24)) :=
      attributes_decides _ (Nat.lt_succ_self _) (by simp only [List.length_drop]; omega) (by omega)
    exact hattrs.congr (by simp [hf, hle'])
  · rename_i hf
    exact decides_ok ⟨hle', fun h => absurd h hf⟩

lemma message_decides (hlen : len < 2 ^ 31) (hle : len ≤ nh.length) :
    Decides (message cb nh len type) (PayloadFits cb nh len type) := by
  unfold message
  by_cases h1 : type = rtmNewlink
  · rw [if_pos h1]
    exact newlink_decides.congr
      (by simp [PayloadFits, h1, rtmNewlink, rtmDellink, rtmNewaddr, rtmDeladdr])
  rw [if_neg h1]
  by_cases h2 : type = rtmDellink
  · rw [if_pos h2]
    exact dellink_decides.congr
      (by simp [PayloadFits, h2, rtmNewlink, rtmDellink, rtmNewaddr, rtmDeladdr])
  rw [if_neg h2]
  by_cases h3 : type = rtmNewaddr
  · rw [if_pos h3]
    exact (addr_decides hlen hle).congr
      (by simp [PayloadFits, h3, rtmNewlink, rtmDellink, rtmNewaddr])
  rw [if_neg h3]
  by_cases h4 : type = rtmDeladdr
  · rw [if_pos h4]
    exact (addr_decides hlen hle).congr
      (by simp [PayloadFits, h4, rtmNewlink, rtmDellink, rtmDeladdr])
  rw [if_neg h4]
  exact decides_ok (by simp [PayloadFits, h1, h2, h3, h4])

/-! ### The messages -/

lemma fits_of_none (h : ∀ len type, ¬ MessageAt nh len type) : Fits cb nh := by
  rw [Fits, forall_reflTransGen]
  exact ⟨fun len type hm => absurd hm (h len type),
    fun _ ⟨len, type, hm, _⟩ => absurd hm (h len type)⟩

lemma fits_of_messageAt (hm : MessageAt nh len type) :
    Fits cb nh ↔ (align len ≤ nh.length ∧ PayloadFits cb nh len type) ∧
      Fits cb (nh.drop (align len)) := by
  have huniq : ∀ len' type', MessageAt nh len' type' → len' = len ∧ type' = type :=
    fun len' type' h => ⟨Option.some.inj (h.1.symm.trans hm.1),
      Option.some.inj (h.2.1.symm.trans hm.2.1)⟩
  rw [Fits, forall_reflTransGen]
  refine and_congr ⟨fun h => h _ _ hm, ?_⟩ ⟨fun h => h _ ⟨len, type, hm, rfl⟩, ?_⟩
  · rintro h len' type' hm'
    obtain ⟨rfl, rfl⟩ := huniq len' type' hm'
    exact h
  · rintro h nh' ⟨len', type', hm', rfl⟩
    obtain ⟨rfl, rfl⟩ := huniq len' type' hm'
    exact h

/-- The loop over the messages, as long as `bufferSize` is what is left. -/
lemma messages_decides (fuel : ℕ) (hfuel : nh.length < fuel) (hlen : nh.length < 2 ^ 31) :
    Decides (messages cb fuel nh nh.length) (Fits cb nh) := by
  induction fuel generalizing nh with
  | zero => omega
  | succ fuel ih =>
    rw [messages]
    by_cases h16 : 16 ≤ nh.length
    swap
    · rw [if_neg h16]
      exact decides_ok (fits_of_none fun _ _ hm => h16 (hm.2.2.1.trans hm.2.2.2.1))
    rw [if_pos h16]
    have hinside : (load32 nh 0).isSome = true ∧ (load16 nh 4).isSome = true :=
      ⟨load32_isSome.mpr (by omega), load16_isSome.mpr (by omega)⟩
    obtain ⟨len, hl⟩ := Option.isSome_iff_exists.mp hinside.1
    obtain ⟨type, ht⟩ := Option.isSome_iff_exists.mp hinside.2
    have huniq : ∀ len' type', MessageAt nh len' type' → len' = len ∧ type' = type :=
      fun len' type' hm => ⟨Option.some.inj (hm.1.symm.trans hl),
        Option.some.inj (hm.2.1.symm.trans ht)⟩
    rw [hl, ht, inside_some, inside_some, ok_bind]
    by_cases hle : 16 ≤ len ∧ len ≤ nh.length
    swap
    · rw [if_neg hle]
      refine decides_ok (fits_of_none fun len' type' hm => hle ?_)
      obtain ⟨rfl, -⟩ := huniq len' type' hm
      exact ⟨hm.2.2.1, hm.2.2.2.1⟩
    rw [if_pos hle, ok_bind]
    by_cases hend : type = nlmsgDone ∨ type = nlmsgError
    · rw [if_pos hend]
      refine decides_ok (fits_of_none fun len' type' hm => ?_)
      obtain ⟨-, rfl⟩ := huniq len' type' hm
      exact hend.elim hm.2.2.2.2.1 hm.2.2.2.2.2
    rw [if_neg hend]
    have hm : MessageAt nh len type := ⟨hl, ht, hle.1, hle.2, not_or.mp hend⟩
    refine Decides.congr ?_ (fits_of_messageAt hm).symm
    refine (message_decides (by omega) hle.2).bind (fun h => h.1.2) fun items _ hp => ?_
    have halign : len ≤ align len ∧ align len < len + 4 := le_align (by omega)
    by_cases hpad : align len ≤ nh.length
    · have hsub : Size.sub nh.length (align len) = (nh.drop (align len)).length := by
        rw [List.length_drop, Size.sub_eq (by unfold Size.sizeMod; omega) hpad]
      rw [hsub]
      have hdrop : (nh.drop (align len)).length = nh.length - align len := List.length_drop
      refine (ih (by omega) (by omega)).bind And.right fun rest _ hr => ?_
      exact decides_ok ⟨⟨hpad, hp⟩, hr⟩
    · -- the padding ends outside, and `bufferSize` wraps around
      have hnil : nh.drop (align len) = [] := List.drop_eq_nil_iff.mpr (by omega)
      have hsub : 16 ≤ Size.sub nh.length (align len) := by
        unfold Size.sub Size.sizeMod
        omega
      obtain ⟨fuel, rfl⟩ : ∃ f, fuel = f + 1 := ⟨fuel - 1, by omega⟩
      rw [hnil, messages, if_pos hsub]
      exact decides_outside fun h => hpad h.1.1

/-- **Inside the datagram.** On every datagram of less than `2^31` bytes the parser comes to
an end, and everything it reads lies inside if and only if every message before the first end
mark fits: its padding, the fields that are read of its structure and the four bytes of an
address that is handed over. -/
theorem stays_inside (cb : Bool) (buf : List UInt8) (hlen : buf.length < 2 ^ 31) :
    processNetlinkTelegram cb buf ≠ .error .fuel ∧
      ((processNetlinkTelegram cb buf).isOk = true ↔ Fits cb buf) :=
  messages_decides _ (Nat.lt_succ_self _) hlen

/-! ### Datagrams it leaves -/

/-- The header of a message, with zero flags, sequence number and port. -/
def header (len type : ℕ) : List UInt8 := bytes32 len ++ bytes16 type ++ List.replicate 10 0

/-- The address 10.0.0.1 has come to interface 1. -/
def newAddress : List UInt8 :=
  header 32 rtmNewaddr ++ [2, 24, 0, 0, 1, 0, 0, 0] ++
    (bytes16 8 ++ bytes16 ifaLocal ++ [10, 0, 0, 1])

/-- The attribute is read, and it fits. -/
theorem newAddress_inside : Fits true newAddress ∧
    processNetlinkTelegram true newAddress = .ok [.update, .event .addressAdded 1 "10.0.0.1"] := by
  have hitems : processNetlinkTelegram true newAddress =
      .ok [.update, .event .addressAdded 1 "10.0.0.1"] := by decide +kernel
  exact ⟨(stays_inside true newAddress (by decide)).2.mp (by rw [hitems]; rfl), hitems⟩

/-- A message of 17 bytes without padding, one without the structure of its type, and an
address of no bytes. -/
theorem leaves_datagram :
    processNetlinkTelegram true (header 17 24 ++ [0]) = .error .outside ∧
    processNetlinkTelegram true (header 16 rtmNewlink) = .error .outside ∧
    processNetlinkTelegram true (header 28 rtmNewaddr ++ [2, 0, 0, 0, 1, 0, 0, 0] ++
      (bytes16 4 ++ bytes16 ifaLocal)) = .error .outside := by
  decide +kernel

end Hbm.Datagram
