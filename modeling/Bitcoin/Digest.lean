import Bitcoin.Bytes.Numeral

/-!
# Digests

The digests share one outer shape: a message is padded with `0x80`, zeros and its length in bits to
a multiple of 64 bytes, cut into blocks, and each block is read as sixteen 32-bit words, which a
number of rounds stir into the working words. They differ in the byte order of the length and of the
words, and in their rounds.

Addresses, transaction ids, scripts and nonces use digests only through `Digests`, which fixes
their sizes and nothing else. So every rule of the library is a statement about arbitrary digest
functions; `Digests.standard` is the choice that the network makes.

* **`length_padded`**: the padded message is a whole number of blocks.
-/

/-! ## Messages cut into blocks of sixteen words -/

namespace Bitcoin.Digest

/-- The order in which a digest reads and writes the bytes of its numbers. -/
inductive ByteOrder
  | littleEndian
  | bigEndian
deriving DecidableEq

/-- A number of bytes in the given order. -/
def ByteOrder.fixed (order : ByteOrder) (width n : Nat) : Bytes :=
  match order with
  | .littleEndian => leFixed width n
  | .bigEndian => beFixed width n

/-- The word of four bytes in the given order. -/
def ByteOrder.word (order : ByteOrder) (a b c d : UInt8) : UInt32 :=
  match order with
  | .littleEndian => a.toUInt32 ||| b.toUInt32 <<< 8 ||| c.toUInt32 <<< 16 ||| d.toUInt32 <<< 24
  | .bigEndian => a.toUInt32 <<< 24 ||| b.toUInt32 <<< 16 ||| c.toUInt32 <<< 8 ||| d.toUInt32

/-- The four bytes of a word in the given order. -/
def ByteOrder.wordBytes (order : ByteOrder) (w : UInt32) : Bytes :=
  match order with
  | .littleEndian => [w.toUInt8, (w >>> 8).toUInt8, (w >>> 16).toUInt8, (w >>> 24).toUInt8]
  | .bigEndian => [(w >>> 24).toUInt8, (w >>> 16).toUInt8, (w >>> 8).toUInt8, w.toUInt8]

/-- The message, the mark `0x80`, zeros, and the length in bits as eight bytes. -/
def padded (order : ByteOrder) (message : Bytes) : Bytes :=
  message ++ 0x80 :: (List.replicate ((119 - message.length % 64) % 64) 0 ++
    order.fixed 8 (8 * message.length))

/-- The words of a byte string; one to three bytes at the end are dropped. -/
def words (order : ByteOrder) : Bytes → List UInt32
  | a :: b :: c :: d :: rest => order.word a b c d :: words order rest
  | _ => []

/-- Runs of sixteen words; a shorter run at the end is dropped. -/
def blocksOf (ws : List UInt32) : List (List UInt32) :=
  if (ws.take 16).length = 16 then ws.take 16 :: blocksOf (ws.drop 16) else []
termination_by ws.length
decreasing_by
  rw [List.length_drop]
  rename_i h
  rw [List.length_take] at h
  omega

/-- The blocks of a padded message. -/
def blocks (order : ByteOrder) (message : Bytes) : List (List UInt32) :=
  blocksOf (words order (padded order message))

/-- A word turned left by the given number of bits, which lies between 1 and 31. -/
def rotateLeft (w : UInt32) (bits : UInt32) : UInt32 := w <<< bits ||| w >>> (32 - bits)

/-- A word turned right by the given number of bits, which lies between 1 and 31. -/
def rotateRight (w : UInt32) (bits : UInt32) : UInt32 := w >>> bits ||| w <<< (32 - bits)

@[simp]
theorem length_fixed (order : ByteOrder) (width n : Nat) :
    (order.fixed width n).length = width := by
  cases order
  · exact length_leFixed width n
  · exact length_beFixed width n

@[simp]
theorem length_wordBytes (order : ByteOrder) (w : UInt32) : (order.wordBytes w).length = 4 := by
  cases order <;> rfl

/-- The padded message is a whole number of blocks. -/
theorem length_padded (order : ByteOrder) (message : Bytes) :
    (padded order message).length % 64 = 0 := by
  rw [padded, List.length_append, List.length_cons, List.length_append, List.length_replicate,
    length_fixed]
  omega

end Bitcoin.Digest

/-! ## SHA-1

Five working words and eighty rounds a block, in four groups of twenty that differ in their
mixing function and their constant. -/

namespace Bitcoin.Digest.Sha1

/-- The five working words. -/
structure State where
  a : UInt32
  b : UInt32
  c : UInt32
  d : UInt32
  e : UInt32

/-- The words before the first block. -/
def initial : State := ⟨0x67452301, 0xefcdab89, 0x98badcfe, 0x10325476, 0xc3d2e1f0⟩

/-- Adds `count` schedule words in front, the latest first. -/
def extend : Nat → List UInt32 → List UInt32
  | 0, latest => latest
  | count + 1, latest =>
      let w := rotateLeft
        (latest.getD 2 0 ^^^ latest.getD 7 0 ^^^ latest.getD 13 0 ^^^ latest.getD 15 0) 1
      extend count (w :: latest)

/-- The eighty schedule words of a block. -/
def schedule (block : List UInt32) : List UInt32 := (extend 64 block.reverse).reverse

/-- The mixing function of a round. -/
def mix (t : Nat) (b c d : UInt32) : UInt32 :=
  if t < 20 then (b &&& c) ||| (~~~b &&& d)
  else if t < 40 then b ^^^ c ^^^ d
  else if t < 60 then (b &&& c) ||| (b &&& d) ||| (c &&& d)
  else b ^^^ c ^^^ d

/-- The constant of a round. -/
def roundConstant (t : Nat) : UInt32 :=
  if t < 20 then 0x5a827999
  else if t < 40 then 0x6ed9eba1
  else if t < 60 then 0x8f1bbcdc
  else 0xca62c1d6

/-- Round `t` with its schedule word. -/
def round (s : State) (t : Nat) (w : UInt32) : State :=
  let a := rotateLeft s.a 5 + mix t s.b s.c s.d + s.e + roundConstant t + w
  ⟨a, s.a, rotateLeft s.b 30, s.c, s.d⟩

/-- The words after a block. -/
def absorb (s : State) (block : List UInt32) : State :=
  let t := (schedule block).zipIdx.foldl (fun s wt => round s wt.2 wt.1) s
  ⟨s.a + t.a, s.b + t.b, s.c + t.c, s.d + t.d, s.e + t.e⟩

/-- The words as bytes, high byte first. -/
def State.bytes (s : State) : FixedBytes 20 :=
  ⟨[s.a, s.b, s.c, s.d, s.e].flatMap ByteOrder.bigEndian.wordBytes, rfl⟩

/-- The SHA-1 digest. -/
def digest (message : Bytes) : FixedBytes 20 :=
  ((blocks .bigEndian message).foldl absorb initial).bytes

end Bitcoin.Digest.Sha1

/-! ## SHA-256

Eight working words, sixty-four rounds a block, and a message schedule that extends the sixteen
words of a block by a recurrence. -/

namespace Bitcoin.Digest.Sha256

/-- The eight working words. -/
structure State where
  a : UInt32
  b : UInt32
  c : UInt32
  d : UInt32
  e : UInt32
  f : UInt32
  g : UInt32
  h : UInt32

/-- The words before the first block. -/
def initial : State :=
  ⟨0x6a09e667, 0xbb67ae85, 0x3c6ef372, 0xa54ff53a, 0x510e527f, 0x9b05688c, 0x1f83d9ab, 0x5be0cd19⟩

/-- One constant for each round. -/
def roundConstants : List UInt32 :=
  [0x428a2f98, 0x71374491, 0xb5c0fbcf, 0xe9b5dba5, 0x3956c25b, 0x59f111f1, 0x923f82a4, 0xab1c5ed5,
   0xd807aa98, 0x12835b01, 0x243185be, 0x550c7dc3, 0x72be5d74, 0x80deb1fe, 0x9bdc06a7, 0xc19bf174,
   0xe49b69c1, 0xefbe4786, 0x0fc19dc6, 0x240ca1cc, 0x2de92c6f, 0x4a7484aa, 0x5cb0a9dc, 0x76f988da,
   0x983e5152, 0xa831c66d, 0xb00327c8, 0xbf597fc7, 0xc6e00bf3, 0xd5a79147, 0x06ca6351, 0x14292967,
   0x27b70a85, 0x2e1b2138, 0x4d2c6dfc, 0x53380d13, 0x650a7354, 0x766a0abb, 0x81c2c92e, 0x92722c85,
   0xa2bfe8a1, 0xa81a664b, 0xc24b8b70, 0xc76c51a3, 0xd192e819, 0xd6990624, 0xf40e3585, 0x106aa070,
   0x19a4c116, 0x1e376c08, 0x2748774c, 0x34b0bcb5, 0x391c0cb3, 0x4ed8aa4a, 0x5b9cca4f, 0x682e6ff3,
   0x748f82ee, 0x78a5636f, 0x84c87814, 0x8cc70208, 0x90befffa, 0xa4506ceb, 0xbef9a3f7, 0xc67178f2]

/-- The next schedule word, from the words so far with the latest first. -/
def nextWord (latest : List UInt32) : UInt32 :=
  let w2 := latest.getD 1 0
  let w15 := latest.getD 14 0
  let s0 := rotateRight w15 7 ^^^ rotateRight w15 18 ^^^ w15 >>> 3
  let s1 := rotateRight w2 17 ^^^ rotateRight w2 19 ^^^ w2 >>> 10
  s1 + latest.getD 6 0 + s0 + latest.getD 15 0

/-- Adds `count` schedule words in front, the latest first. -/
def extend : Nat → List UInt32 → List UInt32
  | 0, latest => latest
  | count + 1, latest => extend count (nextWord latest :: latest)

/-- The sixty-four schedule words of a block. -/
def schedule (block : List UInt32) : List UInt32 := (extend 48 block.reverse).reverse

/-- One round with its constant and its schedule word. -/
def round (s : State) (k w : UInt32) : State :=
  let s1 := rotateRight s.e 6 ^^^ rotateRight s.e 11 ^^^ rotateRight s.e 25
  let choice := (s.e &&& s.f) ^^^ (~~~s.e &&& s.g)
  let t1 := s.h + s1 + choice + k + w
  let s0 := rotateRight s.a 2 ^^^ rotateRight s.a 13 ^^^ rotateRight s.a 22
  let majority := (s.a &&& s.b) ^^^ (s.a &&& s.c) ^^^ (s.b &&& s.c)
  ⟨t1 + (s0 + majority), s.a, s.b, s.c, s.d + t1, s.e, s.f, s.g⟩

/-- The words after a block. -/
def absorb (s : State) (block : List UInt32) : State :=
  let t := (roundConstants.zip (schedule block)).foldl (fun s kw => round s kw.1 kw.2) s
  ⟨s.a + t.a, s.b + t.b, s.c + t.c, s.d + t.d, s.e + t.e, s.f + t.f, s.g + t.g, s.h + t.h⟩

/-- The words as bytes, high byte first. -/
def State.bytes (s : State) : FixedBytes 32 :=
  ⟨[s.a, s.b, s.c, s.d, s.e, s.f, s.g, s.h].flatMap ByteOrder.bigEndian.wordBytes, rfl⟩

/-- The SHA-256 digest. -/
def digest (message : Bytes) : FixedBytes 32 :=
  ((blocks .bigEndian message).foldl absorb initial).bytes

end Bitcoin.Digest.Sha256

/-! ## Keyed digests

HMAC over SHA-256: the key fills one block, a longer key is digested first, and the message is
digested inside and outside under two masks of that block. -/

namespace Bitcoin.Digest.Hmac

/-- The key as one block of 64 bytes. -/
def keyBlock (key : Bytes) : Bytes :=
  let short := if key.length ≤ 64 then key else (Sha256.digest key).toBytes
  short ++ List.replicate (64 - short.length) 0

/-- Every byte of the key block under a mask. -/
def masked (key : Bytes) (mask : UInt8) : Bytes := (keyBlock key).map (· ^^^ mask)

/-- The keyed digest of a message. -/
def sha256 (key message : Bytes) : FixedBytes 32 :=
  Sha256.digest (masked key 0x5c ++ (Sha256.digest (masked key 0x36 ++ message)).toBytes)

end Bitcoin.Digest.Hmac

/-! ## RIPEMD-160

Two lines of eighty rounds run over each block, with their own orders of the message words, their
own amounts of rotation and their own constants; the results are added crosswise. -/

namespace Bitcoin.Digest.Ripemd160

/-- The five working words. -/
structure State where
  a : UInt32
  b : UInt32
  c : UInt32
  d : UInt32
  e : UInt32

/-- The words before the first block. -/
def initial : State := ⟨0x67452301, 0xefcdab89, 0x98badcfe, 0x10325476, 0xc3d2e1f0⟩

/-- What a line of rounds is given: message word, rotation, and for each group of sixteen rounds
    the number of its mixing function and its constant. -/
structure Line where
  order : List Nat
  rotations : List UInt32
  functions : List Nat
  constants : List UInt32

/-- The left line. -/
def left : Line where
  order :=
    [0, 1, 2, 3, 4, 5, 6, 7, 8, 9, 10, 11, 12, 13, 14, 15,
     7, 4, 13, 1, 10, 6, 15, 3, 12, 0, 9, 5, 2, 14, 11, 8,
     3, 10, 14, 4, 9, 15, 8, 1, 2, 7, 0, 6, 13, 11, 5, 12,
     1, 9, 11, 10, 0, 8, 12, 4, 13, 3, 7, 15, 14, 5, 6, 2,
     4, 0, 5, 9, 7, 12, 2, 10, 14, 1, 3, 8, 11, 6, 15, 13]
  rotations :=
    [11, 14, 15, 12, 5, 8, 7, 9, 11, 13, 14, 15, 6, 7, 9, 8,
     7, 6, 8, 13, 11, 9, 7, 15, 7, 12, 15, 9, 11, 7, 13, 12,
     11, 13, 6, 7, 14, 9, 13, 15, 14, 8, 13, 6, 5, 12, 7, 5,
     11, 12, 14, 15, 14, 15, 9, 8, 9, 14, 5, 6, 8, 6, 5, 12,
     9, 15, 5, 11, 6, 8, 13, 12, 5, 12, 13, 14, 11, 8, 5, 6]
  functions := [0, 1, 2, 3, 4]
  constants := [0x00000000, 0x5a827999, 0x6ed9eba1, 0x8f1bbcdc, 0xa953fd4e]

/-- The right line. -/
def right : Line where
  order :=
    [5, 14, 7, 0, 9, 2, 11, 4, 13, 6, 15, 8, 1, 10, 3, 12,
     6, 11, 3, 7, 0, 13, 5, 10, 14, 15, 8, 12, 4, 9, 1, 2,
     15, 5, 1, 3, 7, 14, 6, 9, 11, 8, 12, 2, 10, 0, 4, 13,
     8, 6, 4, 1, 3, 11, 15, 0, 5, 12, 2, 13, 9, 7, 10, 14,
     12, 15, 10, 4, 1, 5, 8, 7, 6, 2, 13, 14, 0, 3, 9, 11]
  rotations :=
    [8, 9, 9, 11, 13, 15, 15, 5, 7, 7, 8, 11, 14, 14, 12, 6,
     9, 13, 15, 7, 12, 8, 9, 11, 7, 7, 12, 7, 6, 15, 13, 11,
     9, 7, 15, 11, 8, 6, 6, 14, 12, 13, 5, 14, 13, 13, 7, 5,
     15, 5, 8, 11, 14, 14, 6, 14, 6, 9, 12, 9, 12, 5, 15, 8,
     8, 5, 12, 9, 12, 5, 14, 6, 8, 13, 6, 5, 15, 13, 11, 11]
  functions := [4, 3, 2, 1, 0]
  constants := [0x50a28be6, 0x5c4dd124, 0x6d703ef3, 0x7a6d76e9, 0x00000000]

/-- The five mixing functions. -/
def mix : Nat → UInt32 → UInt32 → UInt32 → UInt32
  | 0, x, y, z => x ^^^ y ^^^ z
  | 1, x, y, z => (x &&& y) ||| (~~~x &&& z)
  | 2, x, y, z => (x ||| ~~~y) ^^^ z
  | 3, x, y, z => (x &&& z) ||| (y &&& ~~~z)
  | _, x, y, z => x ^^^ (y ||| ~~~z)

/-- One round with its mixing function, constant, message word and rotation. -/
def round (s : State) (f : Nat) (k w rotation : UInt32) : State :=
  let b := rotateLeft (s.a + mix f s.b s.c s.d + w + k) rotation + s.e
  ⟨s.e, b, s.b, rotateLeft s.c 10, s.d⟩

/-- The eighty rounds of a line. -/
def Line.run (line : Line) (block : List UInt32) (s : State) : State :=
  (line.order.zip line.rotations).zipIdx.foldl (fun s x =>
    let group := x.2 / 16
    round s (line.functions.getD group 0) (line.constants.getD group 0)
      (block.getD x.1.1 0) x.1.2) s

/-- The words after a block. -/
def absorb (s : State) (block : List UInt32) : State :=
  let l := left.run block s
  let r := right.run block s
  ⟨s.b + l.c + r.d, s.c + l.d + r.e, s.d + l.e + r.a, s.e + l.a + r.b, s.a + l.b + r.c⟩

/-- The words as bytes, low byte first. -/
def State.bytes (s : State) : FixedBytes 20 :=
  ⟨[s.a, s.b, s.c, s.d, s.e].flatMap ByteOrder.littleEndian.wordBytes, rfl⟩

/-- The RIPEMD-160 digest. -/
def digest (message : Bytes) : FixedBytes 20 :=
  ((blocks .littleEndian message).foldl absorb initial).bytes

end Bitcoin.Digest.Ripemd160

/-! ## The digests that the rules are stated over -/

namespace Bitcoin

/-- The digest functions in use, with their sizes. -/
class Digests where
  sha1 : Bytes → FixedBytes 20
  sha256 : Bytes → FixedBytes 32
  ripemd160 : Bytes → FixedBytes 20
  hash160 : Bytes → Hash160
  hash256 : Bytes → FixedBytes 32
  hmacSha256 : Bytes → Bytes → FixedBytes 32

/-- The digests of the network: `hash256` is SHA-256 twice, and `hash160` is RIPEMD-160 of
    SHA-256. -/
@[reducible]
def Digests.standard : Digests where
  sha1 := Digest.Sha1.digest
  sha256 := Digest.Sha256.digest
  ripemd160 := Digest.Ripemd160.digest
  hash160 data := Digest.Ripemd160.digest (Digest.Sha256.digest data).toBytes
  hash256 data := Digest.Sha256.digest (Digest.Sha256.digest data).toBytes
  hmacSha256 := Digest.Hmac.sha256

end Bitcoin
