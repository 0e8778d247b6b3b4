import Hbm.Bytes
import Hbm.Size
import Mathlib.Tactic.Cases

/-!
The netlink parser: `processNetlinkTelegram` on the bytes of one datagram.

A pointer is the list of the bytes from there to the end of the datagram, so a read past the
datagram is a load that answers `none`. The macros of the headers are written out: `NLMSG_OK`
and `NLMSG_NEXT` count in `size_t`, the alignment is done on 32 bits, and the attribute loop
counts in `int`. Numbers are little-endian.
-/

namespace Hbm.Netlink

open Hbm.Bytes

/-- Why the function does not return: it reads outside the datagram, or it has not come to an
end yet. -/
inductive Fault
  | outside | fuel
  deriving DecidableEq

inductive Event
  | linkAdded | linkRemoved | addressAdded | addressRemoved | complete
  deriving DecidableEq

/-- What the function does: it updates the adapter list, or it calls the event handler. -/
inductive Item
  | update
  | event (event : Event) (adapterIndex : ℕ) (ipv4Address : String)
  deriving DecidableEq

/-! ### Constants of the Linux headers -/

def nlmsgError : ℕ := 2
def nlmsgDone : ℕ := 3
def rtmNewlink : ℕ := 16
def rtmDellink : ℕ := 17
def rtmNewaddr : ℕ := 20
def rtmDeladdr : ℕ := 21
def ifaLocal : ℕ := 2
def afInet : ℕ := 2

/-- `IFF_UP & flags`. -/
def isUp (flags : ℕ) : Bool := flags % 2 == 1

/-- `NLMSG_ALIGN` and `RTA_ALIGN`. -/
def align (len : ℕ) : ℕ := (len + 3) % 2 ^ 32 / 4 * 4

/-- `IFA_PAYLOAD`: the length without the header and `ifaddrmsg`, as an `int`. -/
def ifaPayload (len : ℕ) : ℤ := Size.toInt ((len + (2 ^ 32 - 24)) % 2 ^ 32)

def inetNtoa (a b c d : UInt8) : String :=
  toString a.toNat ++ "." ++ toString b.toNat ++ "." ++ toString c.toNat ++ "." ++
    toString d.toNat

/-- The `in_addr` at an offset, as a string. -/
def loadAddress (p : List UInt8) (off : ℕ) : Option String :=
  match (p.drop off).take 4 with
  | [a, b, c, d] => some (inetNtoa a b c d)
  | _ => none

def inside {α : Type} : Option α → Except Fault α
  | some a => .ok a
  | none => .error .outside

/-! ### The parser -/

/-- A call of the event handler, if there is one, with the index at offset 20 of the message. -/
def notify (cb : Bool) (event : Event) (nh : List UInt8) : Except Fault (List Item) :=
  if cb then do
    let index ← inside (load32 nh 20)
    return [.event event index ""]
  else return []

/-- `RTM_NEWLINK`, with `ifi_change` at offset 28 and `ifi_flags` at 24. -/
def newlink (cb : Bool) (nh : List UInt8) : Except Fault (List Item) := do
  let change ← inside (load32 nh 28)
  if change ≠ 0 then
    let flags ← inside (load32 nh 24)
    notify cb (if isUp flags then .linkAdded else .linkRemoved) nh
  else return []

def dellink (cb : Bool) (nh : List UInt8) : Except Fault (List Item) := do
  let flags ← inside (load32 nh 24)
  if isUp flags then return []
  else notify cb .linkRemoved nh

/-- One attribute: the address is at offset 4, the interface index in the message. -/
def ifaLocalItems (cb : Bool) (event : Event) (nh rth : List UInt8) (type : ℕ) :
    Except Fault (List Item) :=
  if type = ifaLocal ∧ cb then do
    let index ← inside (load32 nh 20)
    let address ← inside (loadAddress rth 4)
    return [.event event index address]
  else return []

/-- The loop over the attributes. -/
def attributes (cb : Bool) (event : Event) (nh : List UInt8) :
    ℕ → List UInt8 → ℤ → Except Fault (List Item)
  | 0, _, _ => .error .fuel
  | fuel + 1, rth, rtl =>
    if rtl ≠ 0 ∧ 4 ≤ rtl then do
      let len ← inside (load16 rth 0)
      if 4 ≤ len ∧ (len : ℤ) ≤ rtl then
        let type ← inside (load16 rth 2)
        let items ← ifaLocalItems cb event nh rth type
        let rest ← attributes cb event nh fuel (rth.drop (align len)) (rtl - align len)
        return items ++ rest
      else return []
    else return []

/-- `RTM_NEWADDR` and `RTM_DELADDR`, with `ifa_family` at offset 16. -/
def addr (cb : Bool) (event : Event) (nh : List UInt8) (len : ℕ) : Except Fault (List Item) := do
  let family ← inside (load8 nh 16)
  if family = afInet then
    attributes cb event nh ((nh.drop 24).length + 1) (nh.drop 24) (ifaPayload len)
  else return []

/-- The switch over the message type. -/
def message (cb : Bool) (nh : List UInt8) (len type : ℕ) : Except Fault (List Item) :=
  if type = rtmNewlink then newlink cb nh
  else if type = rtmDellink then dellink cb nh
  else if type = rtmNewaddr then addr cb .addressAdded nh len
  else if type = rtmDeladdr then addr cb .addressRemoved nh len
  else return []

/-- The loop over the messages. -/
def messages (cb : Bool) : ℕ → List UInt8 → ℕ → Except Fault (List Item)
  | 0, _, _ => .error .fuel
  | fuel + 1, nh, bufferSize =>
    if 16 ≤ bufferSize then do
      let len ← inside (load32 nh 0)
      if 16 ≤ len ∧ len ≤ bufferSize then
        let type ← inside (load16 nh 4)
        if type = nlmsgDone ∨ type = nlmsgError then return []
        else
          let items ← message cb nh len type
          let rest ← messages cb fuel (nh.drop (align len)) (Size.sub bufferSize (align len))
          return .update :: items ++ rest
      else return []
    else return []

/-- The function on a datagram. A message takes 16 bytes at least, so the fuel is enough. -/
def processNetlinkTelegram (cb : Bool) (buf : List UInt8) : Except Fault (List Item) :=
  messages cb (buf.length + 1) buf buf.length

/-! ### Lengths -/

lemma align_eq {len : ℕ} (h : len < 2 ^ 31) : align len = (len + 3) / 4 * 4 := by
  rw [align, Nat.mod_eq_of_lt (by omega)]

lemma le_align {len : ℕ} (h : len < 2 ^ 31) : len ≤ align len ∧ align len < len + 4 := by
  rw [align_eq h]
  omega

lemma ifaPayload_eq {len : ℕ} (h : len < 2 ^ 31) : ifaPayload len = len - 24 := by
  unfold ifaPayload Size.toInt
  omega

/-! ### Faults -/

@[simp] lemma inside_some {α : Type} (a : α) : inside (some a) = .ok a := rfl

@[simp] lemma inside_none {α : Type} : inside (none : Option α) = .error .outside := rfl

@[simp] lemma ok_bind {α β : Type} (a : α) (f : α → Except Fault β) :
    (Except.ok a >>= f) = f a := rfl

@[simp] lemma error_bind {α β : Type} (e : Fault) (f : α → Except Fault β) :
    ((Except.error e : Except Fault α) >>= f) = .error e := rfl

@[simp] lemma pure_eq_ok {α : Type} (a : α) : (pure a : Except Fault α) = .ok a := rfl

end Hbm.Netlink
