import XNetty.WebSocket.Codec

/-!
# The length check of the frame parser

Before the codec copies a payload it compares the bytes at hand with the length of the frame, a sum
of two 64-bit numbers. The sum wraps for the last fourteen payload lengths, and the check passes
with hardly a byte behind the header.

## Main definitions

* `WebSocketCodec.turns` — the buffers at which the loop of `channelRead` starts a turn.
* `WebSocketCodec.LengthsChecked` — no payload is copied that is not there.
* `WebSocketCodec.lengthsChecked_iff` — when that is so.
-/

namespace XNetty

namespace WebSocketCodec

/-- The buffers at which the loop starts a turn with bytes in them. -/
def turns : ℕ → CodecState → ByteBuf → List ByteBuf
  | 0, _, _ => []
  | fuel + 1, st, buf =>
    if buf.readableBytes = 0 then []
    else
      match parseFrame st.toFragments buf.readable with
      | .done n next _ => buf :: turns fuel { st with toFragments := next } (buf.discard n)
      | _ => [buf]

theorem zero_le_writerIndex (buf : ByteBuf) : 0 ≤ buf.writerIndex := Nat.zero_le _

/-- The state and the buffer that the loop of `channelRead` starts with: the leftover is moved in
front of what has arrived. -/
def arrive (st : CodecState) (buf : ByteBuf) : CodecState × ByteBuf :=
  if st.leftover.readableBytes > 0 then
    let leftover := st.leftover.writeBytes buf.readable
    let buf := buf.clear.writeBytes leftover.readable
    ({ st with leftover := leftover.clear }, buf.setReaderIndex 0 (zero_le_writerIndex buf))
  else (st, buf)

theorem readBuffer_eq_arrive (st : CodecState) (buf : ByteBuf) :
    readBuffer st buf = readLoop (arrive st buf).2.readableBytes (arrive st buf).1
      (arrive st buf).2 := by
  unfold readBuffer arrive
  split <;> rfl

/-- The turns of one call of `channelRead`. -/
def readTurns (st : CodecState) (buf : ByteBuf) : List ByteBuf :=
  turns (arrive st buf).2.readableBytes (arrive st buf).1 (arrive st buf).2

/-- The turn goes on to copy the payload behind this header. -/
def Copies (buf : ByteBuf) (h : FrameHeader) : Prop :=
  parseHeader buf.readable = some h ∧
    ¬ buf.readableBytes < (h.headerLen + h.payloadLen) % sizeWrap

/-- A payload is copied only if the buffer holds it, and otherwise the bytes are kept; nothing is
thrown. -/
structure LengthsChecked (st : CodecState) (buf : ByteBuf) : Prop where
  exact : ∀ b ∈ readTurns st buf, ∀ h, Copies b h → h.headerLen + h.payloadLen ≤ b.readableBytes
  kept : ∀ b ∈ readTurns st buf, (¬ ∃ h, Copies b h) →
    (readBuffer st buf).state.leftover.readable = b.readable
  returns : (readBuffer st buf).thrown = false

/-! ### Lengths -/

/-- A length of `xs.length` further bytes. -/
theorem foldl_bytes_lt (byte : ℕ → UInt8) (xs : List ℕ) {n k : ℕ} (hn : n < 2 ^ (8 * k)) :
    xs.foldl (fun payloadLen i => payloadLen <<< 8 ||| (byte i).toNat) n <
      2 ^ (8 * (k + xs.length)) := by
  induction xs generalizing n k with
  | nil => exact hn
  | cons i xs ih =>
    have hshift : n <<< 8 < 2 ^ (8 * (k + 1)) := by
      rw [Nat.shiftLeft_eq, Nat.mul_add, pow_add]
      exact Nat.mul_lt_mul_of_pos_right hn (by norm_num)
    have hbyte : (byte i).toNat < 2 ^ (8 * (k + 1)) :=
      (byte i).toNat_lt.trans_le (Nat.pow_le_pow_right (by norm_num) (by omega))
    have hrest := ih (Nat.or_lt_two_pow hshift hbyte)
    rwa [List.foldl_cons, List.length_cons, Nat.add_comm xs.length 1, ← Nat.add_assoc]

/-- A payload length has 64 bits. -/
theorem payloadLen_lt {raw : Bytes} {h : FrameHeader} (hh : parseHeader raw = some h) :
    h.payloadLen < sizeWrap := by
  unfold parseHeader at hh
  split at hh
  · simp at hh
  · cases hl : parseLength raw with
    | none => simp [hl] at hh
    | some l =>
      have hlength : l.1 < sizeWrap := by
        unfold parseLength at hl
        dsimp only at hl
        have hbits : (byteAt raw 1 &&& 0x7F).toNat < 2 ^ 8 := UInt8.toNat_lt _
        have hshort := foldl_bytes_lt (byteAt raw) [2, 3] (n := 0) (k := 0) (by norm_num)
        have hlong := foldl_bytes_lt (fun i => byteAt raw (2 + i)) [0, 1, 2, 3, 4, 5, 6, 7]
          (n := 0) (k := 0) (by norm_num)
        unfold sizeWrap
        split_ifs at hl <;> simp only [Option.some.injEq] at hl <;> subst hl
        · simp at hshort ⊢
          omega
        · simpa using hlong
        · simp only
          omega
      simp only [hl] at hh
      split at hh
      · simp at hh
      · simp only [Option.some.injEq] at hh
        subst hh
        exact hlength

/-- **The sum wraps** to less than the header's length. -/
theorem copies_of_wrap {buf : ByteBuf} {h : FrameHeader} (hh : parseHeader buf.readable = some h)
    (hwrap : sizeWrap ≤ h.headerLen + h.payloadLen) : Copies buf h := by
  refine ⟨hh, ?_⟩
  have hpayload := payloadLen_lt hh
  have hheader := (parseHeader_bounds hh).2.2.1
  rw [ByteBuf.length_readable] at hheader
  unfold sizeWrap at *
  omega

/-! ### Turns -/

section turns

variable {st : CodecState} {buf b : ByteBuf} {fuel : ℕ}

theorem parseFrame_eq_more_iff (st : Fragments) (buf : ByteBuf) :
    parseFrame st buf.readable = .more ↔ ¬ ∃ h, Copies buf h := by
  unfold Copies
  rw [← ByteBuf.length_readable]
  cases hh : parseHeader buf.readable with
  | none => simp [parseFrame, hh]
  | some h =>
    by_cases hlen : buf.readable.length < (h.headerLen + h.payloadLen) % sizeWrap
    · simpa [parseFrame_of_short hh hlen] using hlen
    · have hcopies : ∃ h', some h = some h' ∧
          ¬ buf.readable.length < (h'.headerLen + h'.payloadLen) % sizeWrap := ⟨h, rfl, hlen⟩
      refine iff_of_false ?_ (not_not_intro hcopies)
      by_cases hstr : maxStringSize < h.payloadLen
      · simp [parseFrame_of_huge hh hlen hstr]
      · rw [parseFrame_of_frame hh hlen hstr]
        cases frameAction st h (payloadOf buf.readable h) with
        | refuse => simp [FrameAction.verdict]
        | collect next => simp [FrameAction.verdict]
        | deliver next frame =>
          simp only [FrameAction.verdict]
          split <;> simp

/-- A turn that copies nothing is the last, and keeps its bytes. -/
theorem readLoop_keeps (hfuel : buf.readableBytes ≤ fuel) (hb : b ∈ turns fuel st buf)
    (hnone : ¬ ∃ h, Copies b h) :
    (readLoop fuel st buf).state.leftover.readable = st.leftover.readable ++ b.readable := by
  induction fuel generalizing st buf with
  | zero => simp [turns] at hb
  | succ fuel ih =>
    by_cases hzero : buf.readableBytes = 0
    · simp [turns, hzero] at hb
    have hturn := readLoop_turn fuel st buf hzero
    simp only [turns, if_neg hzero] at hb
    cases hparse : parseFrame st.toFragments buf.readable with
    | more =>
      rw [hparse] at hturn hb
      obtain rfl := List.mem_singleton.mp hb
      simp [hturn]
    | halt n next out =>
      rw [hparse] at hb
      obtain rfl := List.mem_singleton.mp hb
      simp [(parseFrame_eq_more_iff st.toFragments b).mpr hnone] at hparse
    | done n next out =>
      rw [hparse] at hturn hb
      rcases List.mem_cons.mp hb with rfl | hb
      · simp [(parseFrame_eq_more_iff st.toFragments b).mpr hnone] at hparse
      · rw [hturn]
        exact ih (readableBytes_discard_le hparse hfuel) hb

theorem mem_turns (hzero : buf.readableBytes ≠ 0) : buf ∈ turns (fuel + 1) st buf := by
  simp only [turns, if_neg hzero]
  split <;> simp

theorem turns_of_done (hzero : buf.readableBytes ≠ 0) {n : ℕ} {next : Fragments}
    {out : List WebSocketFrame}
    (hdone : parseFrame st.toFragments buf.readable = .done n next out) :
    turns (fuel + 1) st buf =
      buf :: turns fuel { st with toFragments := next } (buf.discard n) := by
  simp only [turns, if_neg hzero, hdone]

/-- The buffers only get shorter. -/
theorem readableBytes_le_of_mem (hb : b ∈ turns fuel st buf) :
    b.readableBytes ≤ buf.readableBytes := by
  induction fuel generalizing st buf with
  | zero => simp [turns] at hb
  | succ fuel ih =>
    by_cases hzero : buf.readableBytes = 0
    · simp [turns, hzero] at hb
    simp only [turns, if_neg hzero] at hb
    cases hparse : parseFrame st.toFragments buf.readable with
    | more =>
      rw [hparse] at hb
      rw [List.mem_singleton.mp hb]
    | halt n next out =>
      rw [hparse] at hb
      rw [List.mem_singleton.mp hb]
    | done n next out =>
      rw [hparse] at hb
      rcases List.mem_cons.mp hb with rfl | hb
      · exact le_rfl
      · refine (ih hb).trans ?_
        rw [← ByteBuf.length_readable, ← ByteBuf.length_readable, ByteBuf.readable_discard]
        simp

/-- Strings that can be made throw nothing. -/
theorem readLoop_returns
    (hfits : ∀ b ∈ turns fuel st buf, ∀ h, Copies b h → h.payloadLen ≤ maxStringSize) :
    (readLoop fuel st buf).thrown = false := by
  induction fuel generalizing st buf with
  | zero => rfl
  | succ fuel ih =>
    by_cases hzero : buf.readableBytes = 0
    · simp [readLoop, hzero]
    have hrest : ∀ {n next out}, parseFrame st.toFragments buf.readable = .done n next out →
        (readLoop fuel { st with toFragments := next } (buf.discard n)).thrown = false := by
      intro n next out hdone
      rw [turns_of_done hzero hdone] at hfits
      exact ih fun b hb => hfits b (List.mem_cons_of_mem _ hb)
    simp only [readLoop, if_neg hzero]
    cases hh : parseHeader buf.readable with
    | none => rfl
    | some h =>
      dsimp only
      by_cases hlen : buf.readableBytes < (h.headerLen + h.payloadLen) % sizeWrap
      · rw [if_pos hlen]
      have hstr := not_lt.mpr (hfits buf (mem_turns hzero) h ⟨hh, hlen⟩)
      rw [if_neg hlen, if_neg hstr]
      rw [← ByteBuf.length_readable] at hlen
      have hparse : parseFrame st.toFragments buf.readable = _ := parseFrame_of_frame hh hlen hstr
      cases haction : frameAction st.toFragments h (payloadOf buf.readable h) with
      | refuse => rfl
      | collect next =>
        rw [haction] at hparse
        exact hrest hparse
      | deliver next frame =>
        rw [haction] at hparse
        by_cases hclose : frame.opcode = .close
        · simp [hclose]
        · rw [FrameAction.verdict, if_neg hclose] at hparse
          simpa [hclose] using hrest hparse

end turns

/-! ### One call -/

theorem arrive_spec (st : CodecState) (buf : ByteBuf) :
    (arrive st buf).1.leftover.readable = [] ∧
      (arrive st buf).2.readableBytes = st.leftover.readableBytes + buf.readableBytes := by
  unfold arrive
  split
  · have hset : ∀ xs : Bytes, (buf.clear.writeBytes xs).setReaderIndex 0 (Nat.zero_le _) =
        buf.clear.writeBytes xs :=
      fun xs => ByteBuf.setReaderIndex_self _ (ByteBuf.readerIndex_writeBytes buf.clear xs)
    simp only [hset, ← ByteBuf.length_readable]
    exact ⟨ByteBuf.readable_clear _, by simp⟩
  · have hzero : st.leftover.readableBytes = 0 := by omega
    exact ⟨(ByteBuf.readable_eq_nil_iff _).mpr hzero, by rw [hzero, Nat.zero_add]⟩

/-- **The lengths are checked** in a call of `channelRead` exactly when no header that the loop
comes to makes the sum of the header's length and the payload's wrap. -/
theorem lengthsChecked_iff (st : CodecState) (buf : ByteBuf)
    (hsize : st.leftover.readableBytes + buf.readableBytes ≤ maxStringSize) :
    LengthsChecked st buf ↔
      ∀ b ∈ readTurns st buf, ∀ h, parseHeader b.readable = some h →
        h.headerLen + h.payloadLen < sizeWrap := by
  obtain ⟨hleft, hbytes⟩ := arrive_spec st buf
  have hbound : ∀ b ∈ readTurns st buf, b.readableBytes ≤ maxStringSize := fun b hb =>
    (readableBytes_le_of_mem hb).trans (hbytes ▸ hsize)
  constructor
  · intro hchecked b hb h hh
    by_contra hwrap
    have hexact := hchecked.exact b hb h (copies_of_wrap hh (not_lt.mp hwrap))
    have hle := hbound b hb
    unfold maxStringSize at hle
    unfold sizeWrap at hwrap
    omega
  · intro hsum
    have hexact : ∀ b ∈ readTurns st buf, ∀ h, Copies b h →
        h.headerLen + h.payloadLen ≤ b.readableBytes := by
      intro b hb h hcopies
      have hle := not_lt.mp hcopies.2
      rwa [Nat.mod_eq_of_lt (hsum b hb h hcopies.1)] at hle
    refine ⟨hexact, fun b hb hnone => ?_, ?_⟩
    · rw [readBuffer_eq_arrive, readLoop_keeps le_rfl hb hnone, hleft, List.nil_append]
    · rw [readBuffer_eq_arrive]
      refine readLoop_returns fun b hb h hcopies => ?_
      have hle := hexact b hb h hcopies
      have hmax := hbound b hb
      omega

/-- A whole frame, and the first two bytes of the next one's header. -/
theorem lengthsChecked_cut :
    LengthsChecked .fresh (ByteBuf.empty.writeBytes [0x82, 0x01, 0x61, 0x82, 0xfe]) := by
  refine (lengthsChecked_iff .fresh _ (by decide)).mpr fun b hb h hh => ?_
  have hall : (readTurns .fresh (ByteBuf.empty.writeBytes [0x82, 0x01, 0x61, 0x82, 0xfe])).all
      fun b => (parseHeader b.readable).all fun h => h.headerLen + h.payloadLen < sizeWrap := by
    decide +kernel
  simpa [hh] using List.all_eq_true.mp hall b hb

/-- The largest payload length, unmasked: the sum is `9`, less than the ten bytes at hand. -/
theorem not_lengthsChecked_allOnes :
    ¬ LengthsChecked .fresh
      (ByteBuf.empty.writeBytes [0x82, 0x7f, 255, 255, 255, 255, 255, 255, 255, 255]) := by
  intro h
  have hthrown : (readBuffer .fresh
      (ByteBuf.empty.writeBytes [0x82, 0x7f, 255, 255, 255, 255, 255, 255, 255, 255])).thrown =
      true := by decide +kernel
  simp [h.returns] at hthrown

end WebSocketCodec

end XNetty
