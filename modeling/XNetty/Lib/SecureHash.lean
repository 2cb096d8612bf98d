import Mathlib.Tactic

/-!
# The secure hash standard: SHA-1

A message is padded to whole blocks of 512 bits, the last 64 of them its length in bits. Each block
is expanded to eighty words, and eighty rounds mix them into five words of state.

## Main definitions

* `SecureHash.pad`, `SecureHash.blocks` — the padded message and its blocks.
* `SecureHash.W`, `SecureHash.round`, `SecureHash.compress` — the computation on one block.
* `SecureHash.digest` — the digest.
-/

namespace SecureHash

/-! ### Padding -/

/-- A number, most significant octet first. -/
def bigEndian : ℕ → ℕ → List UInt8
  | 0, _ => []
  | n + 1, x => UInt8.ofNat (x / 256 ^ n) :: bigEndian n x

@[simp] theorem length_bigEndian (n x : ℕ) : (bigEndian n x).length = n := by
  induction n with
  | zero => rfl
  | succ n ih => rw [bigEndian, List.length_cons, ih]

/-- The zero octets behind the octet `0x80`, for a message of so many octets: as few as fill the
last block up to its last 64 bits. -/
def zeros (len : ℕ) : ℕ := (119 - len % 64) % 64

def padding (len : ℕ) : List UInt8 :=
  0x80 :: List.replicate (zeros len) 0 ++ bigEndian 8 (8 * len)

def pad (message : List UInt8) : List UInt8 := message ++ padding message.length

/-- The `i`-th block of 64 octets. -/
def blockAt (bytes : List UInt8) (i : ℕ) : List UInt8 := (bytes.drop (64 * i)).take 64

def blocks (bytes : List UInt8) : List (List UInt8) :=
  (List.range (bytes.length / 64)).map (blockAt bytes)

theorem blockAt_append_left {front : List UInt8} {i : ℕ} (h : 64 * i + 64 ≤ front.length)
    (back : List UInt8) : blockAt (front ++ back) i = blockAt front i := by
  rw [blockAt, blockAt, List.drop_append_of_le_length (by omega),
    List.take_append_of_le_length (by rw [List.length_drop]; omega)]

theorem blockAt_append_right {front : List UInt8} {n : ℕ} (h : front.length = 64 * n)
    (back : List UInt8) (i : ℕ) : blockAt (front ++ back) (n + i) = blockAt back i := by
  have hskip : 64 * (n + i) = front.length + 64 * i := by omega
  rw [blockAt, blockAt, hskip, ← List.drop_drop, List.drop_left]

/-- Whole blocks in front stay the blocks that they are. -/
theorem blocks_append {front : List UInt8} {n : ℕ} (h : front.length = 64 * n)
    (back : List UInt8) : blocks (front ++ back) = blocks front ++ blocks back := by
  have hlength : (front ++ back).length / 64 = n + back.length / 64 := by
    rw [List.length_append, h]
    omega
  have hfront : front.length / 64 = n := by omega
  rw [blocks, blocks, blocks, hlength, hfront, List.range_add, List.map_append, List.map_map]
  congr 1
  · apply List.map_congr_left
    intro i hi
    exact blockAt_append_left (by rw [h]; have := List.mem_range.mp hi; omega) back
  · apply List.map_congr_left
    intro i _
    exact blockAt_append_right h back i

theorem blocks_single {block : List UInt8} (h : block.length = 64) : blocks block = [block] := by
  have hall : blockAt block 0 = block := by
    rw [blockAt, Nat.mul_zero, List.drop_zero, List.take_of_length_le h.le]
  rw [blocks, h]
  exact congrArg (fun b => [b]) hall

theorem blocks_of_lt {bytes : List UInt8} (h : bytes.length < 64) : blocks bytes = [] := by
  rw [blocks, Nat.div_eq_of_lt h]
  rfl

theorem blocks_of_le {bytes : List UInt8} (h : 64 ≤ bytes.length) :
    blocks bytes = bytes.take 64 :: blocks (bytes.drop 64) := by
  have hlength : (bytes.take 64).length = 64 := by
    rw [List.length_take]
    omega
  conv_lhs => rw [← List.take_append_drop 64 bytes]
  rw [blocks_append (n := 1) hlength, blocks_single hlength]
  rfl

/-- The blocks of a padded message: those of the message, then what is left of it with its
padding. -/
theorem blocks_pad (message : List UInt8) :
    blocks (pad message) = blocks message ++
      blocks (message.drop (64 * (message.length / 64)) ++ padding message.length) := by
  have hsplit := List.take_append_drop (64 * (message.length / 64)) message
  have hlength : (message.take (64 * (message.length / 64))).length =
      64 * (message.length / 64) := by
    rw [List.length_take]
    omega
  have hrest : (message.drop (64 * (message.length / 64))).length < 64 := by
    rw [List.length_drop]
    omega
  have hwhole : blocks message = blocks (message.take (64 * (message.length / 64))) := by
    conv_lhs => rw [← hsplit]
    rw [blocks_append hlength, blocks_of_lt hrest, List.append_nil]
  rw [hwhole, ← blocks_append hlength, ← List.append_assoc, hsplit, pad]

/-! ### One block -/

def rotl (n : UInt32) (x : UInt32) : UInt32 := (x <<< n) ||| (x >>> (32 - n))

def ch (x y z : UInt32) : UInt32 := (x &&& y) ^^^ (~~~x &&& z)

def parity (x y z : UInt32) : UInt32 := x ^^^ y ^^^ z

def maj (x y z : UInt32) : UInt32 := (x &&& y) ^^^ (x &&& z) ^^^ (y &&& z)

/-- The function of round `t`. -/
def f (t : ℕ) : UInt32 → UInt32 → UInt32 → UInt32 :=
  if t < 20 then ch else if t < 40 then parity else if t < 60 then maj else parity

/-- The constant of round `t`. -/
def K (t : ℕ) : UInt32 :=
  if t < 20 then 0x5a827999 else if t < 40 then 0x6ed9eba1 else if t < 60 then 0x8f1bbcdc
  else 0xca62c1d6

/-- The `t`-th of the sixteen words of a block. -/
def word (block : List UInt8) (t : ℕ) : UInt32 :=
  UInt32.ofNat ((block.getD (4 * t) 0).toNat * 2 ^ 24 + (block.getD (4 * t + 1) 0).toNat * 2 ^ 16 +
    (block.getD (4 * t + 2) 0).toNat * 2 ^ 8 + (block.getD (4 * t + 3) 0).toNat)

/-- The message schedule. -/
def W (block : List UInt8) (t : ℕ) : UInt32 :=
  if t < 16 then word block t
  else rotl 1 (W block (t - 3) ^^^ W block (t - 8) ^^^ W block (t - 14) ^^^ W block (t - 16))
termination_by t

/-- Five words: the state between two blocks, and the working variables within one. -/
structure Words where
  a : UInt32
  b : UInt32
  c : UInt32
  d : UInt32
  e : UInt32
  deriving DecidableEq

def initial : Words := ⟨0x67452301, 0xefcdab89, 0x98badcfe, 0x10325476, 0xc3d2e1f0⟩

/-- Round `t`. -/
def round (w : ℕ → UInt32) (s : Words) (t : ℕ) : Words :=
  ⟨rotl 5 s.a + f t s.b s.c s.d + s.e + K t + w t, s.a, rotl 30 s.b, s.c, s.d⟩

def compress (s : Words) (block : List UInt8) : Words :=
  let v := (List.range 80).foldl (round (W block)) s
  ⟨v.a + s.a, v.b + s.b, v.c + s.c, v.d + s.d, v.e + s.e⟩

/-! ### The digest -/

def Words.bytes (s : Words) : List UInt8 :=
  [s.a, s.b, s.c, s.d, s.e].flatMap fun x => bigEndian 4 x.toNat

def digest (message : List UInt8) : List UInt8 :=
  ((blocks (pad message)).foldl compress initial).bytes

end SecureHash
