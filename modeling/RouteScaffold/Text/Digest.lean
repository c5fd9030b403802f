import RouteScaffold.Text.Utf8

/-!
# Digest

The SHA-256 digest of a sequence of bytes. A message is padded to whole
blocks of 64 bytes, the last eight of which hold its length in bits; each
block is spread to 64 words and folded into a state of eight words by 64
rounds. Arithmetic is on 32-bit words, which wrap.

## Main definitions

* `Digest.State`: The eight working words.
* `Digest.blocks`: A padded message, as blocks of sixteen words.
* `Digest.sha256`: The digest, as hexadecimal text.
-/

namespace RouteScaffold

namespace Digest

/-- The eight working words. -/
structure State where
  a : UInt32
  b : UInt32
  c : UInt32
  d : UInt32
  e : UInt32
  f : UInt32
  g : UInt32
  h : UInt32

/-- The first fractional bits of the square roots of the first eight
    primes. -/
def initial : State :=
  ⟨0x6a09e667, 0xbb67ae85, 0x3c6ef372, 0xa54ff53a, 0x510e527f, 0x9b05688c, 0x1f83d9ab,
    0x5be0cd19⟩

/-- The first fractional bits of the cube roots of the first 64 primes. -/
def roundConstants : List UInt32 :=
  [0x428a2f98, 0x71374491, 0xb5c0fbcf, 0xe9b5dba5, 0x3956c25b, 0x59f111f1, 0x923f82a4, 0xab1c5ed5,
    0xd807aa98, 0x12835b01, 0x243185be, 0x550c7dc3, 0x72be5d74, 0x80deb1fe, 0x9bdc06a7, 0xc19bf174,
    0xe49b69c1, 0xefbe4786, 0x0fc19dc6, 0x240ca1cc, 0x2de92c6f, 0x4a7484aa, 0x5cb0a9dc, 0x76f988da,
    0x983e5152, 0xa831c66d, 0xb00327c8, 0xbf597fc7, 0xc6e00bf3, 0xd5a79147, 0x06ca6351, 0x14292967,
    0x27b70a85, 0x2e1b2138, 0x4d2c6dfc, 0x53380d13, 0x650a7354, 0x766a0abb, 0x81c2c92e, 0x92722c85,
    0xa2bfe8a1, 0xa81a664b, 0xc24b8b70, 0xc76c51a3, 0xd192e819, 0xd6990624, 0xf40e3585, 0x106aa070,
    0x19a4c116, 0x1e376c08, 0x2748774c, 0x34b0bcb5, 0x391c0cb3, 0x4ed8aa4a, 0x5b9cca4f, 0x682e6ff3,
    0x748f82ee, 0x78a5636f, 0x84c87814, 0x8cc70208, 0x90befffa, 0xa4506ceb, 0xbef9a3f7, 0xc67178f2]

/-- A word rotated to the right by fewer than 32 places. -/
def rotate (w : UInt32) (n : UInt32) : UInt32 := (w >>> n) ||| (w <<< (32 - n))

/-- A number as big-endian bytes, as many as asked for. -/
def bigEndian : (size : Nat) → Nat → List UInt8
  | 0, _ => []
  | size + 1, n => UInt8.ofNat (n / 256 ^ size) :: bigEndian size n

/-- A message with its padding: one bit, zeros up to eight bytes short of a
    whole block, and the length in bits. -/
def padded (message : List UInt8) : List UInt8 :=
  message ++ 0x80 :: List.replicate ((119 - message.length % 64) % 64) 0
    ++ bigEndian 8 (8 * message.length)

/-- Bytes as big-endian words; an incomplete word at the end is left out. -/
def words : List UInt8 → List UInt32
  | a :: b :: c :: d :: rest =>
    UInt32.ofNat (((a.toNat * 256 + b.toNat) * 256 + c.toNat) * 256 + d.toNat) :: words rest
  | _ => []

/-- Words in groups of sixteen, the size of a block. -/
def blocksOf : (count : Nat) → List UInt32 → List (List UInt32)
  | 0, _ => []
  | count + 1, ws => ws.take 16 :: blocksOf count (ws.drop 16)

/-- A padded message, as blocks of sixteen words. -/
def blocks (message : List UInt8) : List (List UInt32) :=
  blocksOf ((message.length + 72) / 64) (words (padded message))

/-- Adds words to the schedule of a block, whose words are kept newest
    first. -/
def spread : (count : Nat) → List UInt32 → List UInt32
  | 0, ws => ws
  | count + 1, ws =>
    let x := ws.getD 14 0
    let y := ws.getD 1 0
    let s0 := rotate x 7 ^^^ rotate x 18 ^^^ (x >>> 3)
    let s1 := rotate y 17 ^^^ rotate y 19 ^^^ (y >>> 10)
    spread count ((ws.getD 15 0 + s0 + ws.getD 6 0 + s1) :: ws)

/-- The 64 words of a block's schedule. -/
def schedule (block : List UInt32) : List UInt32 := (spread 48 block.reverse).reverse

/-- One round, with its constant and its word of the schedule. -/
def round (s : State) (constant word : UInt32) : State :=
  let s1 := rotate s.e 6 ^^^ rotate s.e 11 ^^^ rotate s.e 25
  let choice := (s.e &&& s.f) ^^^ (~~~s.e &&& s.g)
  let t1 := s.h + s1 + choice + constant + word
  let s0 := rotate s.a 2 ^^^ rotate s.a 13 ^^^ rotate s.a 22
  let majority := (s.a &&& s.b) ^^^ (s.a &&& s.c) ^^^ (s.b &&& s.c)
  ⟨t1 + s0 + majority, s.a, s.b, s.c, s.d + t1, s.e, s.f, s.g⟩

/-- The state after a block: the rounds' result added to what was there. -/
def absorb (s : State) (block : List UInt32) : State :=
  let r := (roundConstants.zip (schedule block)).foldl (fun s kw => round s kw.1 kw.2) s
  ⟨s.a + r.a, s.b + r.b, s.c + r.c, s.d + r.d, s.e + r.e, s.f + r.f, s.g + r.g, s.h + r.h⟩

/-- The digest of a message, as 64 hexadecimal digits. -/
def sha256 (message : List UInt8) : Text :=
  let s := (blocks message).foldl absorb initial
  [s.a, s.b, s.c, s.d, s.e, s.f, s.g, s.h].flatMap fun w => Utf8.hex 8 w.toNat

end Digest

end RouteScaffold
