import Wallet.Hash.Sha256

/-! Keccak, a sponge over 25 lanes of 64 bits. A single one bit stands between the message and the
zeros of the padding; the standardised SHA-3 puts two more bits there and yields other digests. -/

namespace Wallet.Keccak

/-- The 25 lanes; the lane in column `x` and row `y` is number `x + 5 * y`. -/
abbrev State := Vector UInt64 25

def lane (s : State) (x y : Nat) : UInt64 := s.get ⟨x % 5 + 5 * (y % 5), by omega⟩

def roundConstants : List UInt64 :=
  [0x0000000000000001, 0x0000000000008082, 0x800000000000808a, 0x8000000080008000,
   0x000000000000808b, 0x0000000080000001, 0x8000000080008081, 0x8000000000008009,
   0x000000000000008a, 0x0000000000000088, 0x0000000080008009, 0x000000008000000a,
   0x000000008000808b, 0x800000000000008b, 0x8000000000008089, 0x8000000000008003,
   0x8000000000008002, 0x8000000000000080, 0x000000000000800a, 0x800000008000000a,
   0x8000000080008081, 0x8000000000008080, 0x0000000080000001, 0x8000000080008008]

/-- By how much the lane of each number is rotated. -/
def rotations : Vector UInt64 25 :=
  #v[0, 1, 62, 28, 27, 36, 44, 6, 55, 20, 3, 10, 43, 25, 39, 41, 45, 15, 21, 8, 18, 2, 61, 56, 14]

def rotateLeft (x : UInt64) (n : UInt64) : UInt64 := if n = 0 then x else x <<< n ||| x >>> (64 - n)

/-- Every lane takes in the parities of two neighbouring columns. -/
def theta (s : State) : State :=
  let parity : Vector UInt64 5 := Vector.ofFn fun x =>
    lane s x 0 ^^^ lane s x 1 ^^^ lane s x 2 ^^^ lane s x 3 ^^^ lane s x 4
  let effect : Vector UInt64 5 := Vector.ofFn fun x =>
    parity.get ⟨(x + 4) % 5, by omega⟩ ^^^ rotateLeft (parity.get ⟨(x + 1) % 5, by omega⟩) 1
  Vector.ofFn fun i => s.get i ^^^ effect.get ⟨i % 5, by omega⟩

/-- Lanes are rotated and moved: the lane at `(x, y)` comes from `(x + 3 * y, x)`. -/
def rhoPi (s : State) : State :=
  let rotated : State := Vector.ofFn fun i => rotateLeft (s.get i) (rotations.get i)
  Vector.ofFn fun i => lane rotated (i % 5 + 3 * (i / 5)) (i % 5)

/-- The only step that is not linear, along each row. -/
def chi (s : State) : State :=
  Vector.ofFn fun i =>
    s.get i ^^^ (~~~lane s (i % 5 + 1) (i / 5) &&& lane s (i % 5 + 2) (i / 5))

def round (s : State) (constant : UInt64) : State :=
  let mixed := chi (rhoPi (theta s))
  mixed.set 0 (mixed[0] ^^^ constant)

def permute (s : State) : State := roundConstants.foldl round s

/-- The number that eight bytes write, least significant byte first. -/
def word (bs : Bytes) : UInt64 := bs.foldr (fun b n => n <<< 8 ||| b.toUInt64) 0

def absorb (s : State) (block : Bytes) : State :=
  let words := (block.chunks 8 (block.length / 8)).toArray.map word
  permute (Vector.ofFn fun i => s.get i ^^^ words.getD i 0)

/-- The message, a one bit, zeros, and a one bit that ends the last block of `rate` bytes. -/
def padded (rate : Nat) (message : Bytes) : Bytes :=
  let free := rate - message.length % rate
  if free = 1 then message ++ [0x81] else message ++ 0x01 :: List.replicate (free - 2) 0 ++ [0x80]

def sponge (rate : Nat) (message : Bytes) : State :=
  let input := padded rate message
  (input.chunks rate (input.length / rate)).foldl absorb (Vector.replicate 25 0)

def byteAt (s : State) (i : Nat) : UInt8 :=
  (s.get ⟨i / 8 % 25, by omega⟩ >>> (8 * UInt64.ofNat (i % 8))).toUInt8

/-- Keccak with 256 bits of output. -/
def digest256 (message : Bytes) : Digest :=
  let s := sponge 136 message
  Vector.ofFn fun i => byteAt s i

/-- Keccak with 512 bits of output. -/
def digest512 (message : Bytes) : Vector UInt8 64 :=
  let s := sponge 72 message
  Vector.ofFn fun i => byteAt s i

end Wallet.Keccak
