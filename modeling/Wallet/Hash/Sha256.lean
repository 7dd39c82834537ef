import Wallet.Bytes

/-! SHA-256: the message is padded to blocks of 64 bytes, and a chain of eight 32-bit words absorbs
one block after the other. -/

namespace Wallet

/-- A hash value of 256 bits. -/
abbrev Digest := Vector UInt8 32

namespace Sha256

/-- The eight chaining words. -/
abbrev Chain := Vector UInt32 8

def initial : Chain :=
  #v[0x6a09e667, 0xbb67ae85, 0x3c6ef372, 0xa54ff53a, 0x510e527f, 0x9b05688c, 0x1f83d9ab, 0x5be0cd19]

def roundConstants : List UInt32 :=
  [0x428a2f98, 0x71374491, 0xb5c0fbcf, 0xe9b5dba5, 0x3956c25b, 0x59f111f1, 0x923f82a4, 0xab1c5ed5,
   0xd807aa98, 0x12835b01, 0x243185be, 0x550c7dc3, 0x72be5d74, 0x80deb1fe, 0x9bdc06a7, 0xc19bf174,
   0xe49b69c1, 0xefbe4786, 0x0fc19dc6, 0x240ca1cc, 0x2de92c6f, 0x4a7484aa, 0x5cb0a9dc, 0x76f988da,
   0x983e5152, 0xa831c66d, 0xb00327c8, 0xbf597fc7, 0xc6e00bf3, 0xd5a79147, 0x06ca6351, 0x14292967,
   0x27b70a85, 0x2e1b2138, 0x4d2c6dfc, 0x53380d13, 0x650a7354, 0x766a0abb, 0x81c2c92e, 0x92722c85,
   0xa2bfe8a1, 0xa81a664b, 0xc24b8b70, 0xc76c51a3, 0xd192e819, 0xd6990624, 0xf40e3585, 0x106aa070,
   0x19a4c116, 0x1e376c08, 0x2748774c, 0x34b0bcb5, 0x391c0cb3, 0x4ed8aa4a, 0x5b9cca4f, 0x682e6ff3,
   0x748f82ee, 0x78a5636f, 0x84c87814, 0x8cc70208, 0x90befffa, 0xa4506ceb, 0xbef9a3f7, 0xc67178f2]

def rotateRight (x : UInt32) (n : UInt32) : UInt32 := x >>> n ||| x <<< (32 - n)

/-- One more word of the message schedule, which is kept with the newest word first. -/
def extend (words : List UInt32) : List UInt32 :=
  let w2 := words.getD 1 0
  let w7 := words.getD 6 0
  let w15 := words.getD 14 0
  let w16 := words.getD 15 0
  let s0 := rotateRight w15 7 ^^^ rotateRight w15 18 ^^^ w15 >>> 3
  let s1 := rotateRight w2 17 ^^^ rotateRight w2 19 ^^^ w2 >>> 10
  (w16 + s0 + w7 + s1) :: words

/-- The number that four bytes write. -/
def word (bs : Bytes) : UInt32 := bs.foldl (fun n b => n <<< 8 ||| b.toUInt32) 0

/-- The 64 words that the rounds use for a block. -/
def schedule (block : Bytes) : List UInt32 :=
  let first := ((block.chunks 4 16).map word).reverse
  ((List.range 48).foldl (fun words _ => extend words) first).reverse

def round (h : Chain) (k w : UInt32) : Chain :=
  let a := h[0]
  let e := h[4]
  let s1 := rotateRight e 6 ^^^ rotateRight e 11 ^^^ rotateRight e 25
  let choice := (e &&& h[5]) ^^^ (~~~e &&& h[6])
  let t1 := h[7] + s1 + choice + k + w
  let s0 := rotateRight a 2 ^^^ rotateRight a 13 ^^^ rotateRight a 22
  let majority := (a &&& h[1]) ^^^ (a &&& h[2]) ^^^ (h[1] &&& h[2])
  #v[t1 + s0 + majority, a, h[1], h[2], h[3] + t1, e, h[5], h[6]]

def absorb (h : Chain) (block : Bytes) : Chain :=
  let rounds := roundConstants.zip (schedule block)
  h.zipWith (· + ·) (rounds.foldl (fun h kw => round h kw.1 kw.2) h)

/-- The message, a one bit, zeros, and the message's length in bits as the last eight bytes. -/
def padded (message : Bytes) : Bytes :=
  message ++ 0x80 :: List.replicate ((119 - message.length % 64) % 64) 0
    ++ Bytes.ofNat 8 (8 * message.length)

def digest (message : Bytes) : Digest :=
  let input := padded message
  let h := (input.chunks 64 (input.length / 64)).foldl absorb initial
  Vector.ofFn fun i => (h[i.val / 4] >>> (24 - 8 * UInt32.ofNat (i.val % 4))).toUInt8

end Sha256
end Wallet
