import Hbm.Netlink

/-!
Netlink messages as they are meant: their encoding, and what their decoding is to do.

A message and an attribute carry the proofs that their lengths fit and that they are padded to
four bytes. The padding behind the last attribute may or may not be counted in the length of
the message. The reference semantics goes over the messages in order up to the first end mark,
and the parser does exactly this on their encoding.
-/

namespace Hbm.NetlinkDecode

open Hbm.Bytes Hbm.Netlink

/-! ### Messages -/

/-- An attribute, with the bytes that fill it up. -/
structure Attr where
  type : UInt16
  payload : List UInt8
  pad : List UInt8
  short : 4 + payload.length < 2 ^ 16
  padded : 4 ∣ payload.length + pad.length
  pad_lt : pad.length < 4
  address : type.toNat = ifaLocal → payload.length = 4

def Attr.encode (a : Attr) : List UInt8 :=
  bytes16 (4 + a.payload.length) ++ (bytes16 a.type.toNat ++ (a.payload ++ a.pad))

/-- The events of an attribute of an IPv4 address message. -/
def Attr.items (event : Event) (index : ℕ) (a : Attr) : List Item :=
  match a.payload with
  | [b0, b1, b2, b3] =>
    if a.type.toNat = ifaLocal then [.event event index (inetNtoa b0 b1 b2 b3)] else []
  | _ => []

def encodeAttrs (attrs : List Attr) : List UInt8 := attrs.flatMap Attr.encode

/-- The padding behind the last attribute. -/
def lastPad : List Attr → ℕ
  | [] => 0
  | [a] => a.pad.length
  | _ :: attrs => lastPad attrs

/-- `ifinfomsg`. -/
structure IfInfo where
  family : UInt8
  pad : UInt8
  type : UInt16
  index : UInt32
  flags : UInt32
  change : UInt32

def IfInfo.encode (i : IfInfo) : List UInt8 :=
  [i.family, i.pad] ++ (bytes16 i.type.toNat ++ (bytes32 i.index.toNat ++
    (bytes32 i.flags.toNat ++ bytes32 i.change.toNat)))

/-- `ifaddrmsg`. -/
structure IfAddr where
  family : UInt8
  prefixlen : UInt8
  flags : UInt8
  scope : UInt8
  index : UInt32

def IfAddr.encode (i : IfAddr) : List UInt8 :=
  [i.family, i.prefixlen, i.flags, i.scope] ++ bytes32 i.index.toNat

/-- What is behind the header, `del` for the messages that something has gone. -/
inductive Content
  | link (del : Bool) (info : IfInfo) (rest : List UInt8)
  | addr (del : Bool) (info : IfAddr) (attrs : List Attr)
  | other (type : UInt16) (bytes : List UInt8)

def Content.type : Content → ℕ
  | .link del _ _ => if del then rtmDellink else rtmNewlink
  | .addr del _ _ => if del then rtmDeladdr else rtmNewaddr
  | .other type _ => type.toNat

def Content.bytes : Content → List UInt8
  | .link _ info rest => info.encode ++ rest
  | .addr _ info attrs => info.encode ++ encodeAttrs attrs
  | .other _ bytes => bytes

/-- How many bytes at the end may be padding of the message. -/
def Content.room : Content → ℕ
  | .link _ _ rest => rest.length
  | .addr _ _ attrs => lastPad attrs
  | .other _ bytes => bytes.length

/-- A message, `pad` of whose bytes at the end are not counted in its length. -/
structure Message where
  flags : UInt16
  seq : UInt32
  pid : UInt32
  content : Content
  pad : ℕ
  padded : 4 ∣ content.bytes.length
  pad_lt : pad < 4
  pad_le : pad ≤ content.room
  other : ∀ type bytes, content = .other type bytes → type.toNat ≠ rtmNewlink ∧
    type.toNat ≠ rtmDellink ∧ type.toNat ≠ rtmNewaddr ∧ type.toNat ≠ rtmDeladdr

def Message.len (m : Message) : ℕ := 16 + m.content.bytes.length - m.pad

def Message.encode (m : Message) : List UInt8 :=
  bytes32 m.len ++ (bytes16 m.content.type ++ (bytes16 m.flags.toNat ++
    (bytes32 m.seq.toNat ++ (bytes32 m.pid.toNat ++ m.content.bytes))))

def encode (ms : List Message) : List UInt8 := ms.flatMap Message.encode

/-! ### The reference semantics -/

def Content.items : Content → List Item
  | .link false info _ =>
    if info.change.toNat = 0 then []
    else if isUp info.flags.toNat then [.event .linkAdded info.index.toNat ""]
    else [.event .linkRemoved info.index.toNat ""]
  | .link true info _ =>
    if isUp info.flags.toNat then [] else [.event .linkRemoved info.index.toNat ""]
  | .addr del info attrs =>
    if info.family.toNat = afInet then
      attrs.flatMap (Attr.items (if del then .addressRemoved else .addressAdded)
        info.index.toNat)
    else []
  | .other _ _ => []

/-- One update of the adapter list for each message before the first end mark, and then its
events. -/
def reference : List Message → List Item
  | [] => []
  | m :: ms =>
    if m.content.type = nlmsgDone ∨ m.content.type = nlmsgError then []
    else .update :: m.content.items ++ reference ms

/-! ### Lengths -/

lemma Attr.length_encode (a : Attr) : a.encode.length = 4 + a.payload.length + a.pad.length := by
  simp [Attr.encode]
  omega

lemma Attr.align_len (a : Attr) : align (4 + a.payload.length) = a.encode.length := by
  have := a.short
  have := a.padded
  have := a.pad_lt
  rw [align_eq (by omega), a.length_encode]
  omega

lemma encodeAttrs_cons (a : Attr) (attrs : List Attr) :
    encodeAttrs (a :: attrs) = a.encode ++ encodeAttrs attrs := rfl

lemma lastPad_lt (attrs : List Attr) : lastPad attrs < 4 := by
  induction attrs with
  | nil => simp [lastPad]
  | cons a attrs ih =>
    cases attrs with
    | nil => exact a.pad_lt
    | cons b attrs => exact ih

lemma length_ifAddr (i : IfAddr) : i.encode.length = 8 := by simp [IfAddr.encode]

lemma Content.room_le (c : Content) : c.room ≤ c.bytes.length := by
  cases c with
  | link del info rest => simp [Content.room, Content.bytes]
  | addr del info attrs =>
    have := lastPad_lt attrs
    simp only [Content.room, Content.bytes, List.length_append, length_ifAddr]
    omega
  | other type bytes => exact Nat.le_refl _

lemma Message.length_encode (m : Message) : m.encode.length = 16 + m.content.bytes.length := by
  simp [Message.encode]
  omega

lemma Message.align_len (m : Message) (h : m.encode.length < 2 ^ 31) :
    align m.len = m.encode.length := by
  have := m.padded
  have := m.pad_lt
  have := m.pad_le.trans m.content.room_le
  have hlen := m.length_encode
  rw [align_eq (by unfold Message.len; omega), hlen]
  unfold Message.len
  omega

lemma encode_cons (m : Message) (ms : List Message) :
    encode (m :: ms) = m.encode ++ encode ms := rfl

/-! ### Attributes -/

variable {event : Event} {nh : List UInt8} {index : ℕ}

/-- The reads of an attribute that stands in front of other bytes. -/
lemma Attr.load (a : Attr) (tail : List UInt8) :
    load16 (a.encode ++ tail) 0 = some (4 + a.payload.length) ∧
      load16 (a.encode ++ tail) 2 = some a.type.toNat :=
  ⟨load16_of_eq (p := []) (by rw [Attr.encode, List.append_assoc]; rfl) rfl a.short,
    load16_of_eq (p := bytes16 (4 + a.payload.length))
      (by rw [Attr.encode, List.append_assoc, List.append_assoc]) rfl a.type.toNat_lt⟩

lemma Attr.ifaLocalItems_eq (a : Attr) (tail : List UInt8) (hindex : load32 nh 20 = some index) :
    ifaLocalItems true event nh (a.encode ++ tail) a.type.toNat = .ok (a.items event index) := by
  unfold ifaLocalItems Attr.items
  by_cases ht : a.type.toNat = ifaLocal
  · obtain ⟨b0, b1, b2, b3, hp⟩ := List.length_eq_four.mp (a.address ht)
    have haddr : loadAddress (a.encode ++ tail) 4 = some (inetNtoa b0 b1 b2 b3) := by
      simp [loadAddress, Attr.encode, hp, bytes16]
    rw [if_pos ⟨ht, rfl⟩, hindex, haddr, hp]
    simp [ht]
  · rw [if_neg fun h => ht h.1]
    split <;> simp [ht]

/-- The loop stops behind the last attribute, whether its padding is counted or not. -/
lemma attributes_end (fuel : ℕ) (hfuel : 0 < fuel) (rth : List UInt8) {rtl : ℤ} (h : rtl < 4) :
    attributes true event nh fuel rth rtl = .ok [] := by
  obtain ⟨fuel, rfl⟩ : ∃ f, fuel = f + 1 := ⟨fuel - 1, by omega⟩
  rw [attributes, if_neg (by omega)]
  rfl

/-- The loop on encoded attributes, `k` of whose last padding bytes are not counted. -/
lemma attributes_encode (attrs : List Attr) (tail : List UInt8) (fuel k : ℕ)
    (hfuel : (encodeAttrs attrs ++ tail).length < fuel) (hindex : load32 nh 20 = some index)
    (hk : attrs = [] ∨ k ≤ lastPad attrs) :
    attributes true event nh fuel (encodeAttrs attrs ++ tail) ((encodeAttrs attrs).length - k) =
      .ok (attrs.flatMap (Attr.items event index)) := by
  induction attrs generalizing fuel with
  | nil => exact attributes_end fuel (by omega) _ (by simp [encodeAttrs]; omega)
  | cons a attrs ih =>
    obtain ⟨fuel, rfl⟩ : ∃ f, fuel = f + 1 := ⟨fuel - 1, by omega⟩
    have hlen := a.length_encode
    have htotal : (encodeAttrs (a :: attrs)).length =
        a.encode.length + (encodeAttrs attrs).length := by
      rw [encodeAttrs_cons, List.length_append]
    have hk' : k ≤ lastPad (a :: attrs) := hk.resolve_left nofun
    have hrest : attrs = [] ∨ (k ≤ lastPad attrs ∧ 4 ≤ (encodeAttrs attrs).length) := by
      rcases attrs with _ | ⟨b, attrs⟩
      · exact .inl rfl
      · refine .inr ⟨hk', ?_⟩
        rw [encodeAttrs_cons, List.length_append, b.length_encode]
        omega
    have hle : ((4 + a.payload.length : ℕ) : ℤ) ≤ (encodeAttrs (a :: attrs)).length - k := by
      rcases hrest with rfl | ⟨hk', h4⟩
      · have : k ≤ a.pad.length := hk'
        omega
      · have := lastPad_lt attrs
        omega
    obtain ⟨hload, htype⟩ := a.load (encodeAttrs attrs ++ tail)
    have hnext : ((encodeAttrs (a :: attrs)).length - k - a.encode.length : ℤ) =
        (encodeAttrs attrs).length - k := by omega
    rw [encodeAttrs_cons, List.append_assoc, List.length_append] at hfuel
    rw [attributes, if_pos (by omega), encodeAttrs_cons, List.append_assoc, hload, htype,
      inside_some, inside_some, ok_bind, ← encodeAttrs_cons, if_pos ⟨by omega, hle⟩, ok_bind,
      a.ifaLocalItems_eq _ hindex, ok_bind, a.align_len, List.drop_left, hnext,
      ih fuel (by omega) (hrest.imp_right And.left), ok_bind]
    rfl

/-! ### One message -/

/-- The reads of a message that stands in front of other bytes. -/
lemma Message.load (m : Message) (tail : List UInt8) (h : m.encode.length < 2 ^ 31) :
    load32 (m.encode ++ tail) 0 = some m.len ∧
      load16 (m.encode ++ tail) 4 = some m.content.type := by
  have hlen := m.length_encode
  have htype : m.content.type < 2 ^ 16 := by
    cases m.content with
    | link del info rest =>
      simp only [Content.type, rtmDellink, rtmNewlink]
      split <;> decide
    | addr del info attrs =>
      simp only [Content.type, rtmDeladdr, rtmNewaddr]
      split <;> decide
    | other type bytes => exact type.toNat_lt
  have hlt : m.len < 2 ^ 32 := by
    unfold Message.len
    omega
  exact ⟨load32_of_eq (p := []) (by rw [Message.encode, List.append_assoc]; rfl) rfl hlt,
    load16_of_eq (p := bytes32 m.len)
      (by rw [Message.encode, List.append_assoc, List.append_assoc]) rfl htype⟩

/-- The header takes 16 bytes. -/
lemma Message.encode_eq (m : Message) : ∃ header : List UInt8, header.length = 16 ∧
    m.encode = header ++ m.content.bytes := by
  refine ⟨bytes32 m.len ++ (bytes16 m.content.type ++ (bytes16 m.flags.toNat ++
    (bytes32 m.seq.toNat ++ bytes32 m.pid.toNat))), by simp, ?_⟩
  simp [Message.encode, List.append_assoc]

lemma IfInfo.load (i : IfInfo) {header : List UInt8} (tail : List UInt8)
    (h : header.length = 16) :
    load32 (header ++ (i.encode ++ tail)) 20 = some i.index.toNat ∧
      load32 (header ++ (i.encode ++ tail)) 24 = some i.flags.toNat ∧
      load32 (header ++ (i.encode ++ tail)) 28 = some i.change.toNat := by
  have henc : i.encode ++ tail = [i.family, i.pad] ++ (bytes16 i.type.toNat ++
      (bytes32 i.index.toNat ++ (bytes32 i.flags.toNat ++ (bytes32 i.change.toNat ++ tail)))) := by
    simp only [IfInfo.encode, List.append_assoc]
  rw [henc]
  refine ⟨load32_of_eq (p := header ++ [i.family, i.pad] ++ bytes16 i.type.toNat)
      (q := bytes32 i.flags.toNat ++ (bytes32 i.change.toNat ++ tail)) ?_ (by simp [h])
      i.index.toNat_lt,
    load32_of_eq (p := header ++ [i.family, i.pad] ++ bytes16 i.type.toNat ++
      bytes32 i.index.toNat) (q := bytes32 i.change.toNat ++ tail) ?_ (by simp [h])
      i.flags.toNat_lt,
    load32_of_eq (p := header ++ [i.family, i.pad] ++ bytes16 i.type.toNat ++
      bytes32 i.index.toNat ++ bytes32 i.flags.toNat) (q := tail) ?_ (by simp [h])
      i.change.toNat_lt⟩
  all_goals simp only [List.append_assoc]

lemma IfAddr.load (i : IfAddr) {header : List UInt8} (tail : List UInt8)
    (h : header.length = 16) :
    load8 (header ++ (i.encode ++ tail)) 16 = some i.family.toNat ∧
      load32 (header ++ (i.encode ++ tail)) 20 = some i.index.toNat := by
  refine ⟨?_, load32_of_eq (p := header ++ [i.family, i.prefixlen, i.flags, i.scope]) (q := tail)
    ?_ (by simp [h]) i.index.toNat_lt⟩
  · rw [load8_append_right (by omega), h]
    rfl
  · simp only [IfAddr.encode, List.append_assoc]

lemma notify_eq (h : load32 nh 20 = some index) :
    notify true event nh = .ok [.event event index ""] := by
  rw [notify, if_pos rfl, h]
  rfl

lemma newlink_encode {i : IfInfo} (hindex : load32 nh 20 = some i.index.toNat)
    (hflags : load32 nh 24 = some i.flags.toNat) (hchange : load32 nh 28 = some i.change.toNat)
    (rest : List UInt8) : newlink true nh = .ok (Content.link false i rest).items := by
  rw [newlink, hchange, hflags, inside_some, ok_bind]
  by_cases hc : i.change.toNat = 0
  · simp [hc, Content.items]
  · rw [if_pos hc, inside_some, ok_bind, notify_eq hindex]
    cases hup : isUp i.flags.toNat <;> simp [hc, hup, Content.items]

lemma dellink_encode {i : IfInfo} (hindex : load32 nh 20 = some i.index.toNat)
    (hflags : load32 nh 24 = some i.flags.toNat) (rest : List UInt8) :
    dellink true nh = .ok (Content.link true i rest).items := by
  rw [dellink, hflags, inside_some, ok_bind, notify_eq hindex]
  cases hup : isUp i.flags.toNat <;> simp [hup, Content.items]

lemma addr_encode {i : IfAddr} {attrs : List Attr} {header tail : List UInt8} {len pad : ℕ}
    (h : header.length = 16) (hlen : len < 2 ^ 31)
    (htotal : len + pad = 24 + (encodeAttrs attrs).length) (hpad : pad ≤ lastPad attrs)
    (event : Event) :
    addr true event (header ++ (i.encode ++ (encodeAttrs attrs ++ tail))) len =
      .ok (if i.family.toNat = afInet then attrs.flatMap (Attr.items event i.index.toNat)
        else []) := by
  obtain ⟨hfamily, hindex⟩ := i.load (encodeAttrs attrs ++ tail) h
  have hdrop : (header ++ (i.encode ++ (encodeAttrs attrs ++ tail))).drop 24 =
      encodeAttrs attrs ++ tail := by
    rw [← List.append_assoc, List.drop_left' (by rw [List.length_append, h, length_ifAddr])]
  have hrtl : ifaPayload len = (encodeAttrs attrs).length - pad := by
    rw [ifaPayload_eq hlen]
    omega
  rw [addr, hfamily, inside_some, ok_bind, hdrop, hrtl]
  split
  · exact attributes_encode attrs tail _ pad (Nat.lt_succ_self _) hindex (.inr hpad)
  · rfl

/-- What the parser does on the structure behind the header of a message. -/
lemma message_encode (m : Message) (tail : List UInt8) (h : m.encode.length < 2 ^ 31) :
    message true (m.encode ++ tail) m.len m.content.type = .ok m.content.items := by
  obtain ⟨header, hlen, henc⟩ := m.encode_eq
  have hother := m.other
  have hpad := m.pad_le
  have hle := m.content.room_le
  have htotal := m.length_encode
  have hmlen : m.len = 16 + m.content.bytes.length - m.pad := rfl
  rw [henc]
  rcases hc : m.content with ⟨del, info, rest⟩ | ⟨del, info, attrs⟩ | ⟨type, bytes⟩
  · obtain ⟨hindex, hflags, hchange⟩ := info.load (rest ++ tail) hlen
    rw [Content.bytes, List.append_assoc, List.append_assoc]
    cases del with
    | false => exact newlink_encode hindex hflags hchange rest
    | true => exact dellink_encode hindex hflags rest
  · rw [hc, Content.bytes, List.length_append, length_ifAddr] at hmlen htotal
    rw [hc, Content.bytes, List.length_append, length_ifAddr] at hle
    rw [hc] at hpad
    have hlt : m.len < 2 ^ 31 := by omega
    have hcounted : m.len + m.pad = 24 + (encodeAttrs attrs).length := by omega
    rw [Content.bytes, List.append_assoc, List.append_assoc]
    cases del with
    | false => exact addr_encode hlen hlt hcounted hpad .addressAdded
    | true => exact addr_encode hlen hlt hcounted hpad .addressRemoved
  · obtain ⟨h1, h2, h3, h4⟩ := hother type bytes hc
    simp [message, Content.type, Content.items, h1, h2, h3, h4]

/-! ### The whole datagram -/

/-- The loop over the messages decodes one after the other, up to the first end mark. -/
lemma messages_encode (ms : List Message) (fuel : ℕ) (hfuel : (encode ms).length < fuel)
    (h : (encode ms).length < 2 ^ 31) :
    messages true fuel (encode ms) (encode ms).length = .ok (reference ms) := by
  induction ms generalizing fuel with
  | nil =>
    obtain ⟨fuel, rfl⟩ : ∃ f, fuel = f + 1 := ⟨fuel - 1, by omega⟩
    rfl
  | cons m ms ih =>
    obtain ⟨fuel, rfl⟩ : ∃ f, fuel = f + 1 := ⟨fuel - 1, by omega⟩
    have htotal : (encode (m :: ms)).length = m.encode.length + (encode ms).length := by
      rw [encode_cons, List.length_append]
    have hlen := m.length_encode
    have hpad := m.pad_le.trans m.content.room_le
    have hmlen : m.len = 16 + m.content.bytes.length - m.pad := rfl
    obtain ⟨hload, htype⟩ := m.load (encode ms) (by omega)
    have hsub : Size.sub (encode (m :: ms)).length m.encode.length = (encode ms).length := by
      rw [Size.sub_eq (by unfold Size.sizeMod; omega) (by omega)]
      omega
    rw [messages, if_pos (by omega), reference, encode_cons, hload, htype, inside_some,
      inside_some, ok_bind, ← encode_cons, if_pos ⟨by omega, by omega⟩, ok_bind]
    split
    · rfl
    · rw [encode_cons, message_encode m _ (by omega), ok_bind, m.align_len (by omega),
        List.drop_left, ← encode_cons, hsub, ih fuel (by omega) (by omega), ok_bind]
      rfl

/-- **Decoding is complete and in order.** On the encoding of every list of well-formed
messages the parser updates the adapter list once for each message before the first end mark
and then calls exactly the events of the reference semantics, in the order of the messages and
of their attributes. -/
theorem decode_encode (ms : List Message) (h : (encode ms).length < 2 ^ 31) :
    processNetlinkTelegram true (encode ms) = .ok (reference ms) :=
  messages_encode ms _ (Nat.lt_succ_self _) h

/-- An address that has come, with an address and a label of five bytes, and an end mark. -/
def newAddress : Message where
  flags := 0
  seq := 7
  pid := 0
  content := .addr false ⟨afInet.toUInt8, 24, 128, 0, 3⟩
    [⟨2, [192, 168, 0, 1], [], by decide, by decide, by decide, by decide⟩,
      ⟨3, [101, 116, 104, 48, 0], [0, 0, 0], by decide, by decide, by decide, by decide⟩]
  pad := 3
  padded := by decide
  pad_lt := by decide
  pad_le := by decide
  other := nofun

def endMark : Message where
  flags := 2
  seq := 7
  pid := 0
  content := .other 3 [0, 0, 0, 0]
  pad := 0
  padded := by decide
  pad_lt := by decide
  pad_le := by decide
  other := by
    rintro _ _ ⟨⟩
    decide

theorem decode_newAddress :
    processNetlinkTelegram true (encode [newAddress, endMark, newAddress]) =
      .ok [.update, .event .addressAdded 3 "192.168.0.1"] := by
  have hreference : reference [newAddress, endMark, newAddress] =
      [.update, .event .addressAdded 3 "192.168.0.1"] := by
    decide +kernel
  rw [← hreference]
  exact decode_encode _ (by decide +kernel)

end Hbm.NetlinkDecode
