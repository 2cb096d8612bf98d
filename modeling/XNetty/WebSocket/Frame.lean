import XNetty.Buffer.ByteBuf

/-!
# WebSocket frames on the wire

Frames, the UTF-8 check, the encoder and the header parser of the WebSocket codec.

## Main definitions

* `encodeFrame` — the encoder, writing into a buffer.
* `WebSocketFrame.wire` — the bytes it writes.
* `parseHeader` — the part of `channelRead` that reads the two to fourteen header bytes.
* `parseHeader_wire` — the header of an encoded frame is read back.
-/

namespace XNetty

/-- `enum class WebSocketOpcode : uint8_t`: a cast can produce any value. -/
structure WebSocketOpcode where
  toUInt8 : UInt8
  deriving DecidableEq

namespace WebSocketOpcode

def continuation : WebSocketOpcode := ⟨0x0⟩
def text : WebSocketOpcode := ⟨0x1⟩
def binary : WebSocketOpcode := ⟨0x2⟩
def close : WebSocketOpcode := ⟨0x8⟩
def ping : WebSocketOpcode := ⟨0x9⟩
def pong : WebSocketOpcode := ⟨0xA⟩

end WebSocketOpcode

structure WebSocketFrame where
  opcode : WebSocketOpcode := .text
  fin : Bool := true
  mask : Bool := false
  maskingKey : Vector UInt8 4 := .replicate 4 0
  payload : Bytes := []
  deriving DecidableEq

/-- `isValidUtf8(s, len)`, on the bytes from index `i` on. -/
def isValidUtf8 : Bytes → Bool
  | [] => true
  | s0 :: rest =>
    if s0 &&& 0x80 = 0 then isValidUtf8 rest
    else if s0 &&& 0xe0 = 0xc0 then
      match rest with
      | s1 :: rest => if s1 &&& 0xc0 ≠ 0x80 then false else isValidUtf8 rest
      | _ => false
    else if s0 &&& 0xf0 = 0xe0 then
      match rest with
      | s1 :: s2 :: rest =>
        if s1 &&& 0xc0 ≠ 0x80 ∨ s2 &&& 0xc0 ≠ 0x80 then false
        else if s0 = 0xe0 ∧ s1 &&& 0xe0 = 0x80 then false
        else if s0 = 0xed ∧ s1 &&& 0xe0 = 0xa0 then false
        else isValidUtf8 rest
      | _ => false
    else if s0 &&& 0xf8 = 0xf0 then
      match rest with
      | s1 :: s2 :: s3 :: rest =>
        if s1 &&& 0xc0 ≠ 0x80 ∨ s2 &&& 0xc0 ≠ 0x80 ∨ s3 &&& 0xc0 ≠ 0x80 then false
        else if s0 = 0xf0 ∧ s1 &&& 0xf0 = 0x80 then false
        else if s0 > 0xf4 ∨ (s0 = 0xf4 ∧ s1 > 0x8f) then false
        else isValidUtf8 rest
      | _ => false
    else false

/-- Both masking loops: byte `i` is xored with `key[i % 4]`. -/
def applyMask (key : Vector UInt8 4) (payload : Bytes) : Bytes :=
  payload.mapIdx fun i x => x ^^^ key[i % 4]

@[simp] theorem length_applyMask (key : Vector UInt8 4) (payload : Bytes) :
    (applyMask key payload).length = payload.length := by
  simp [applyMask]

/-- Unmasking undoes masking. -/
@[simp] theorem applyMask_applyMask (key : Vector UInt8 4) (payload : Bytes) :
    applyMask key (applyMask key payload) = payload := by
  apply List.ext_getElem
  · simp
  · intro i h h'
    simp [applyMask, UInt8.xor_assoc]

/-! ## The encoder -/

/-- The extended length of the last branch of `encodeFrame`, most significant byte first. -/
def lengthBytes (payloadSize : ℕ) : Bytes :=
  [7, 6, 5, 4, 3, 2, 1, 0].map fun i => UInt8.ofNat ((payloadSize >>> (i * 8)) &&& 0xFF)

def encodeFrame (frame : WebSocketFrame) : ByteBuf :=
  let payloadSize := frame.payload.length
  let headerSize :=
    if payloadSize ≥ 126 ∧ payloadSize ≤ 0xFFFF then 2 + 2
    else if payloadSize > 0xFFFF then 2 + 10
    else 2
  let headerSize := if frame.mask then headerSize + 4 else headerSize
  let buf := ByteBuf.ofCapacity (headerSize + payloadSize)
  let b0 : UInt8 := if frame.fin then 0x80 else 0x00
  let buf := buf.writeByte (b0 ||| frame.opcode.toUInt8)
  let maskBit := if frame.mask then 0x80 else 0
  let buf :=
    if payloadSize < 126 then buf.writeByte (UInt8.ofNat (payloadSize ||| maskBit))
    else if payloadSize ≤ 0xFFFF then
      let buf := buf.writeByte (UInt8.ofNat (126 ||| maskBit))
      let buf := buf.writeByte (UInt8.ofNat ((payloadSize >>> 8) &&& 0xFF))
      buf.writeByte (UInt8.ofNat (payloadSize &&& 0xFF))
    else (lengthBytes payloadSize).foldl ByteBuf.writeByte
      (buf.writeByte (UInt8.ofNat (127 ||| maskBit)))
  let buf := if frame.mask then buf.writeBytes frame.maskingKey.toList else buf
  if frame.payload = [] then buf
  else if frame.mask then (applyMask frame.maskingKey frame.payload).foldl ByteBuf.writeByte buf
  else buf.writeBytes frame.payload

namespace WebSocketFrame

variable (f : WebSocketFrame)

/-- The length byte with the mask bit, and the extended length if there is one. -/
def lengthField : Bytes :=
  let maskBit := if f.mask then 0x80 else 0
  if f.payload.length < 126 then [UInt8.ofNat (f.payload.length ||| maskBit)]
  else if f.payload.length ≤ 0xFFFF then
    [UInt8.ofNat (126 ||| maskBit), UInt8.ofNat ((f.payload.length >>> 8) &&& 0xFF),
      UInt8.ofNat (f.payload.length &&& 0xFF)]
  else UInt8.ofNat (127 ||| maskBit) :: lengthBytes f.payload.length

def firstByte : UInt8 := (if f.fin then 0x80 else 0x00) ||| f.opcode.toUInt8

def keyField : Bytes := if f.mask then f.maskingKey.toList else []

def body : Bytes := if f.mask then applyMask f.maskingKey f.payload else f.payload

def header : Bytes := f.firstByte :: (f.lengthField ++ f.keyField)

/-- The bytes of an encoded frame. -/
def wire : Bytes := f.header ++ f.body

@[simp] theorem length_body : f.body.length = f.payload.length := by
  unfold body; split <;> simp

@[simp] theorem length_keyField : f.keyField.length = if f.mask then 4 else 0 := by
  unfold keyField; split <;> simp_all

theorem two_le_length_header : 2 ≤ f.header.length := by
  have : 1 ≤ f.lengthField.length := by
    unfold lengthField
    dsimp only
    split_ifs <;> simp
  simp [header]
  omega

theorem wire_ne_nil : f.wire ≠ [] := by
  simp [wire, header]

end WebSocketFrame

@[simp] theorem ByteBuf.readable_foldl_writeByte (buf : ByteBuf) (xs : Bytes) :
    (xs.foldl ByteBuf.writeByte buf).readable = buf.readable ++ xs := by
  induction xs generalizing buf with
  | nil => simp
  | cons x xs ih => simp [ih]

/-- **The encoder writes the frame's wire form and nothing else.** -/
theorem readable_encodeFrame (f : WebSocketFrame) : (encodeFrame f).readable = f.wire := by
  have hempty : f.payload = [] → f.body = [] := fun h => by
    simp [WebSocketFrame.body, h, applyMask]
  simp only [encodeFrame, WebSocketFrame.wire, WebSocketFrame.header, WebSocketFrame.firstByte]
  by_cases hp : f.payload = []
  · rw [if_pos hp, hempty hp]
    cases hm : f.mask <;> simp [WebSocketFrame.lengthField, WebSocketFrame.keyField, hm, hp]
  · rw [if_neg hp]
    cases hm : f.mask <;>
      simp only [WebSocketFrame.lengthField, WebSocketFrame.keyField, WebSocketFrame.body, hm,
        if_true, if_false, Bool.false_eq_true] <;>
      split_ifs <;> simp

/-! ## The header parser -/

/-- `raw[i]` on an index the code has checked. -/
def byteAt (raw : Bytes) (i : ℕ) : UInt8 := raw.getD i 0

/-- The local variables of `channelRead` once the header is read. -/
structure FrameHeader where
  fin : Bool
  opcode : WebSocketOpcode
  masked : Bool
  headerLen : ℕ
  payloadLen : ℕ
  deriving DecidableEq

/-- The payload length and the header length without the masking key. -/
def parseLength (raw : Bytes) : Option (ℕ × ℕ) :=
  let payloadLen := (byteAt raw 1 &&& 0x7F).toNat
  if payloadLen = 126 then
    if raw.length < 4 then none
    else some ((byteAt raw 2).toNat <<< 8 ||| (byteAt raw 3).toNat, 4)
  else if payloadLen = 127 then
    if raw.length < 10 then none
    else some ([0, 1, 2, 3, 4, 5, 6, 7].foldl
      (fun payloadLen i => payloadLen <<< 8 ||| (byteAt raw (2 + i)).toNat) 0, 10)
  else some (payloadLen, 2)

/-- The header at `raw`, unless more bytes are needed to read it. -/
def parseHeader (raw : Bytes) : Option FrameHeader :=
  if raw.length < 2 then none
  else
    let masked := decide (byteAt raw 1 &&& 0x80 ≠ 0)
    match parseLength raw with
    | none => none
    | some (payloadLen, headerLen) =>
      if masked ∧ raw.length < headerLen + 4 then none
      else some
        { fin := decide (byteAt raw 0 &&& 0x80 ≠ 0)
          opcode := ⟨byteAt raw 0 &&& 0x0F⟩
          masked := masked
          headerLen := if masked then headerLen + 4 else headerLen
          payloadLen := payloadLen }

theorem byteAt_append {raw : Bytes} {i : ℕ} (h : i < raw.length) (ys : Bytes) :
    byteAt (raw ++ ys) i = byteAt raw i := by
  simp [byteAt, List.getD, List.getElem?_append_left h]

theorem parseLength_append {raw : Bytes} (h : 2 ≤ raw.length) {l : ℕ × ℕ}
    (hl : parseLength raw = some l) (ys : Bytes) : parseLength (raw ++ ys) = some l := by
  have hlen : (raw ++ ys).length = raw.length + ys.length := List.length_append
  unfold parseLength at hl ⊢
  rw [byteAt_append (by omega), hlen]
  dsimp only at hl ⊢
  by_cases h126 : (byteAt raw 1 &&& 0x7F).toNat = 126
  · rw [if_pos h126] at hl ⊢
    split_ifs at hl with hshort
    rw [if_neg (by omega), byteAt_append (by omega), byteAt_append (by omega)]
    exact hl
  · rw [if_neg h126] at hl ⊢
    by_cases h127 : (byteAt raw 1 &&& 0x7F).toNat = 127
    · rw [if_pos h127] at hl ⊢
      split_ifs at hl with hshort
      rw [if_neg (by omega)]
      simp only [List.foldl_cons, List.foldl_nil] at hl ⊢
      repeat rw [byteAt_append (by omega)]
      exact hl
    · rw [if_neg h127] at hl ⊢
      exact hl

/-- A header once read stays the header, whatever arrives behind it. -/
theorem parseHeader_append {raw : Bytes} {h : FrameHeader} (hh : parseHeader raw = some h)
    (ys : Bytes) : parseHeader (raw ++ ys) = some h := by
  unfold parseHeader at hh ⊢
  split at hh
  · exact absurd hh (by simp)
  next hlen =>
    rw [if_neg (by simp; omega)]
    rw [byteAt_append (by omega), byteAt_append (by omega)]
    cases hl : parseLength raw with
    | none => simp [hl] at hh
    | some l =>
      rw [parseLength_append (by omega) hl]
      simp only [hl] at hh
      split at hh
      · exact absurd hh (by simp)
      next hmask =>
        simp only [List.length_append]
        rw [if_neg (fun hc => hmask ⟨hc.1, by omega⟩)]
        exact hh

/-- A header is read only from bytes that are there. -/
theorem parseHeader_bounds {raw : Bytes} {h : FrameHeader} (hh : parseHeader raw = some h) :
    2 ≤ h.headerLen ∧ h.headerLen ≤ 14 ∧ h.headerLen ≤ raw.length ∧
      (h.masked → 6 ≤ h.headerLen) := by
  unfold parseHeader at hh
  split at hh
  · exact absurd hh (by simp)
  next hlen =>
    cases hl : parseLength raw with
    | none => simp [hl] at hh
    | some l =>
      have hb : 2 ≤ l.2 ∧ l.2 ≤ 10 ∧ l.2 ≤ raw.length := by
        unfold parseLength at hl
        dsimp only at hl
        split_ifs at hl <;> simp only [Option.some.injEq] at hl <;> subst hl <;> simp <;> omega
      simp only [hl] at hh
      split at hh
      · exact absurd hh (by simp)
      next hmask =>
        simp only [Option.some.injEq] at hh
        subst hh
        dsimp only
        split_ifs with hm
        · simp only [hm, true_and] at hmask
          omega
        · exact ⟨by omega, by omega, by omega, fun h => absurd h hm⟩

/-! ## Reading back an encoded header -/

/-- A number is its high bytes and its low byte. -/
theorem shiftLeft_or_byte (n k : ℕ) :
    (n >>> ((k + 1) * 8)) <<< 8 ||| (UInt8.ofNat ((n >>> (k * 8)) &&& 0xFF)).toNat =
      n >>> (k * 8) := by
  have hbyte : (UInt8.ofNat ((n >>> (k * 8)) &&& 0xFF)).toNat = (n >>> (k * 8)) % 2 ^ 8 := by
    rw [show (0xFF : ℕ) = 2 ^ 8 - 1 from rfl, Nat.and_two_pow_sub_one_eq_mod,
      UInt8.toNat_ofNat']
    omega
  rw [hbyte, ← Nat.shiftLeft_add_eq_or_of_lt (Nat.mod_lt _ (by decide)), Nat.succ_mul,
    Nat.shiftRight_add, Nat.shiftLeft_eq, Nat.shiftRight_eq_div_pow (n >>> (k * 8))]
  omega

/-- The eight length bytes are read back as the length. -/
theorem foldl_lengthBytes {n : ℕ} (h : n < 2 ^ 64) :
    (lengthBytes n).foldl (fun payloadLen x => payloadLen <<< 8 ||| x.toNat) 0 = n := by
  have h64 : n >>> ((7 + 1) * 8) = 0 := by
    rw [Nat.shiftRight_eq_div_pow]
    exact Nat.div_eq_of_lt h
  simp only [lengthBytes, List.map_cons, List.map_nil, List.foldl_cons, List.foldl_nil]
  have h7 := shiftLeft_or_byte n 7
  rw [h64] at h7
  rw [h7, shiftLeft_or_byte n 6, shiftLeft_or_byte n 5, shiftLeft_or_byte n 4,
    shiftLeft_or_byte n 3, shiftLeft_or_byte n 2, shiftLeft_or_byte n 1, shiftLeft_or_byte n 0]
  rfl

/-- The length bits and the mask bit of the second byte are read back. -/
theorem lengthByte_bits {n : ℕ} (hn : n < 128) (m : Bool) :
    (UInt8.ofNat (n ||| if m then 0x80 else 0) &&& 0x7F).toNat = n ∧
    decide (UInt8.ofNat (n ||| if m then 0x80 else 0) &&& 0x80 ≠ 0) = m := by
  have hall : ∀ (n : Fin 128) (m : Bool),
      (UInt8.ofNat (n.val ||| if m then 0x80 else 0) &&& 0x7F).toNat = n.val ∧
      decide (UInt8.ofNat (n.val ||| if m then 0x80 else 0) &&& 0x80 ≠ 0) = m := by decide
  exact hall ⟨n, hn⟩ m

/-- The opcode and the FIN bit of the first byte are read back. -/
theorem firstByte_bits {op : UInt8} (hop : op.toNat < 16) (fin : Bool) :
    ((if fin then 0x80 else 0x00) ||| op) &&& 0x0F = op ∧
    decide (((if fin then 0x80 else 0x00) ||| op) &&& 0x80 ≠ 0) = fin := by
  have hall : ∀ (op : Fin 16) (fin : Bool),
      ((if fin then 0x80 else 0x00) ||| UInt8.ofNat op.val) &&& 0x0F = UInt8.ofNat op.val ∧
      decide (((if fin then 0x80 else 0x00) ||| UInt8.ofNat op.val) &&& 0x80 ≠ 0) = fin := by
    decide
  simpa using hall ⟨op.toNat, hop⟩ fin

@[simp] theorem byteAt_cons_zero (x : UInt8) (xs : Bytes) : byteAt (x :: xs) 0 = x := rfl
@[simp] theorem byteAt_cons_succ (x : UInt8) (xs : Bytes) (i : ℕ) :
    byteAt (x :: xs) (i + 1) = byteAt xs i := by
  simp [byteAt]

namespace WebSocketFrame

variable {f : WebSocketFrame}

/-- The length byte is read back, and the extended length behind it. -/
theorem parseLength_header (hsize : f.payload.length < 2 ^ 64) :
    parseLength f.header = some (f.payload.length, 1 + f.lengthField.length) ∧
    decide (byteAt f.header 1 &&& 0x80 ≠ 0) = f.mask := by
  by_cases h125 : f.payload.length < 126
  · obtain ⟨hlow, hhigh⟩ := lengthByte_bits (show f.payload.length < 128 by omega) f.mask
    have hfield : f.lengthField = [UInt8.ofNat (f.payload.length ||| if f.mask then 0x80 else 0)] :=
      if_pos h125
    simp only [header, hfield, List.singleton_append, parseLength, byteAt_cons_zero,
      byteAt_cons_succ, hlow]
    rw [if_neg (by omega), if_neg (by omega)]
    exact ⟨rfl, hhigh⟩
  · by_cases h16 : f.payload.length ≤ 0xFFFF
    · obtain ⟨hlow, hhigh⟩ := lengthByte_bits (show 126 < 128 by omega) f.mask
      have hfield : f.lengthField = [UInt8.ofNat (126 ||| if f.mask then 0x80 else 0),
          UInt8.ofNat ((f.payload.length >>> 8) &&& 0xFF),
          UInt8.ofNat (f.payload.length &&& 0xFF)] := by
        simp [lengthField, h125, h16]
      have hhi : (UInt8.ofNat ((f.payload.length >>> 8) &&& 0xFF)).toNat =
          f.payload.length >>> 8 := by
        have h0 : f.payload.length >>> ((1 + 1) * 8) = 0 := by
          rw [Nat.shiftRight_eq_div_pow]; omega
        simpa [h0] using shiftLeft_or_byte f.payload.length 1
      have hread := shiftLeft_or_byte f.payload.length 0
      simp only [Nat.zero_add, Nat.one_mul, Nat.zero_mul, Nat.shiftRight_zero] at hread
      simp only [header, hfield, List.cons_append, List.nil_append, parseLength,
        byteAt_cons_zero, byteAt_cons_succ, hhi, hread]
      rw [if_pos hlow, if_neg (by simp)]
      exact ⟨rfl, hhigh⟩
    · obtain ⟨hlow, hhigh⟩ := lengthByte_bits (show 127 < 128 by omega) f.mask
      have hfield : f.lengthField =
          UInt8.ofNat (127 ||| if f.mask then 0x80 else 0) :: lengthBytes f.payload.length := by
        simp [lengthField, h125, h16]
      have hbytes : lengthBytes f.payload.length = [_, _, _, _, _, _, _, _] := rfl
      have hread := foldl_lengthBytes hsize
      rw [hbytes] at hread
      simp only [header, hfield, hbytes, List.cons_append, List.nil_append, parseLength,
        byteAt_cons_zero, byteAt_cons_succ]
      rw [if_neg (by rw [hlow]; decide), if_pos hlow, if_neg (by simp)]
      exact ⟨congrArg (fun n => some (n, 10)) hread, hhigh⟩

/-- **The header of an encoded frame is read back**, whatever follows it. -/
theorem parseHeader_wire (hop : f.opcode.toUInt8.toNat < 16)
    (hsize : f.payload.length < 2 ^ 64) (tail : Bytes) :
    parseHeader (f.wire ++ tail) =
      some ⟨f.fin, f.opcode, f.mask, f.header.length, f.payload.length⟩ := by
  obtain ⟨hlength, hmask⟩ := parseLength_header hsize
  obtain ⟨hop', hfin⟩ := firstByte_bits hop f.fin
  have hlen : f.header.length = 1 + f.lengthField.length + f.keyField.length := by
    simp [header]
    omega
  have hheader : parseHeader f.header =
      some ⟨f.fin, f.opcode, f.mask, f.header.length, f.payload.length⟩ := by
    have hfirst : byteAt f.header 0 = f.firstByte := rfl
    unfold parseHeader
    rw [if_neg (by have := f.two_le_length_header; omega), hlength, hmask, hfirst, firstByte,
      hop', hfin]
    rw [length_keyField] at hlen
    cases hm : f.mask <;> simp_all
  rw [wire, List.append_assoc]
  exact parseHeader_append hheader _

end WebSocketFrame

end XNetty
