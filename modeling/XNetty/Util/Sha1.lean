import XNetty.Buffer.ByteBuf

/-!
# SHA-1

The digest behind the accept key of the WebSocket handshake.

## Main definitions

* `sha1Process` — the compression of one block.
* `sha1` — the digest, whole blocks first and then the padded rest.
-/

namespace XNetty

/-- `SHA1Ctx::state`. -/
structure SHA1State where
  a : UInt32 := 0x67452301
  b : UInt32 := 0xEFCDAB89
  c : UInt32 := 0x98BADCFE
  d : UInt32 := 0x10325476
  e : UInt32 := 0xC3D2E1F0
  deriving DecidableEq

def rotl (x : UInt32) (n : UInt32) : UInt32 := (x <<< n) ||| (x >>> (32 - n))

/-- The `i`-th word of a block, most significant byte first. -/
def blockWord (block : Bytes) (i : ℕ) : UInt32 :=
  ((block.getD (i * 4) 0).toUInt32 <<< 24) ||| ((block.getD (i * 4 + 1) 0).toUInt32 <<< 16) |||
    ((block.getD (i * 4 + 2) 0).toUInt32 <<< 8) ||| (block.getD (i * 4 + 3) 0).toUInt32

/-- `n` more words behind the words `w`. -/
def extendWords : ℕ → List UInt32 → List UInt32
  | 0, w => w
  | n + 1, w =>
    let i := w.length
    extendWords n (w ++ [rotl (w.getD (i - 3) 0 ^^^ w.getD (i - 8) 0 ^^^ w.getD (i - 14) 0 ^^^
      w.getD (i - 16) 0) 1])

/-- `w[80]`. -/
def blockWords (block : Bytes) : List UInt32 :=
  extendWords 64 ((List.range 16).map (blockWord block))

/-- One turn of the loop, on its index and its word. -/
def sha1Round (s : SHA1State) (w : UInt32 × ℕ) : SHA1State :=
  let (f, k) :=
    if w.2 < 20 then ((s.b &&& s.c) ||| (~~~s.b &&& s.d), 0x5A827999)
    else if w.2 < 40 then (s.b ^^^ s.c ^^^ s.d, 0x6ED9EBA1)
    else if w.2 < 60 then ((s.b &&& s.c) ||| (s.b &&& s.d) ||| (s.c &&& s.d), 0x8F1BBCDC)
    else (s.b ^^^ s.c ^^^ s.d, 0xCA62C1D6)
  ⟨rotl s.a 5 + f + s.e + k + w.1, s.a, rotl s.b 30, s.c, s.d⟩

def sha1Process (st : SHA1State) (block : Bytes) : SHA1State :=
  let s := (blockWords block).zipIdx.foldl sha1Round st
  ⟨st.a + s.a, st.b + s.b, st.c + s.c, st.d + s.d, st.e + s.e⟩

/-- The whole blocks at the front of the data, `n` of them, and the bytes behind them. -/
def sha1Blocks : ℕ → SHA1State → Bytes → SHA1State × Bytes
  | 0, st, data => (st, data)
  | n + 1, st, data => sha1Blocks n (sha1Process st (data.take 64)) (data.drop 64)

/-- `ctx.count`, most significant byte first. -/
def countBytes (count : UInt64) : Bytes :=
  [(count >>> 56).toUInt8, (count >>> 48).toUInt8, (count >>> 40).toUInt8,
    (count >>> 32).toUInt8, (count >>> 24).toUInt8, (count >>> 16).toUInt8,
    (count >>> 8).toUInt8, count.toUInt8]

def wordBytes (x : UInt32) : Bytes :=
  [(x >>> 24).toUInt8, (x >>> 16).toUInt8, (x >>> 8).toUInt8, x.toUInt8]

/-- `sha1(data, len, out)`. -/
def sha1 (data : Bytes) : Bytes :=
  let (st, rest) := sha1Blocks (data.length / 64) {} data
  let block := rest ++ 0x80 :: List.replicate (63 - rest.length) 0
  let (st, block) :=
    if rest.length ≥ 56 then (sha1Process st block, List.replicate 64 0) else (st, block)
  let st := sha1Process st (block.take 56 ++ countBytes (UInt64.ofNat (data.length * 8)))
  wordBytes st.a ++ wordBytes st.b ++ wordBytes st.c ++ wordBytes st.d ++ wordBytes st.e

theorem length_extendWords (n : ℕ) (w : List UInt32) :
    (extendWords n w).length = w.length + n := by
  induction n generalizing w with
  | zero => rfl
  | succ n ih =>
    simp only [extendWords, ih, List.length_append, List.length_singleton]
    omega

/-- Every block is compressed in eighty rounds. -/
theorem length_blockWords (block : Bytes) : (blockWords block).length = 80 := by
  rw [blockWords, length_extendWords, List.length_map, List.length_range]

/-- Behind the whole blocks less than a block is left. -/
theorem sha1Blocks_snd (n : ℕ) (st : SHA1State) (data : Bytes) :
    (sha1Blocks n st data).2 = data.drop (64 * n) := by
  induction n generalizing st data with
  | zero => rfl
  | succ n ih =>
    rw [sha1Blocks, ih, List.drop_drop]
    congr 1
    omega

@[simp] theorem length_wordBytes (x : UInt32) : (wordBytes x).length = 4 := rfl

@[simp] theorem length_sha1 (data : Bytes) : (sha1 data).length = 20 := by
  unfold sha1
  simp

example : sha1 (ascii "abc") =
    [0xa9, 0x99, 0x3e, 0x36, 0x47, 0x06, 0x81, 0x6a, 0xba, 0x3e, 0x25, 0x71, 0x78, 0x50, 0xc2,
      0x6c, 0x9c, 0xd0, 0xd8, 0x9d] := by decide +kernel

end XNetty
