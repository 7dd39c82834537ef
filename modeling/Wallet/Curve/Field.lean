import Wallet.Bytes

/-! Arithmetic modulo the two primes of the curve secp256k1: the prime of its coordinates and the
order of its group. Inverses are powers, by the little theorem of Fermat. -/

namespace Wallet.Curve

def name : String := "secp256k1"

/-- The prime of the coordinates, `2 ^ 256 - 2 ^ 32 - 977`. -/
def prime : Nat := 0xfffffffffffffffffffffffffffffffffffffffffffffffffffffffefffffc2f

/-- The number of points, a prime too. -/
def order : Nat := 0xfffffffffffffffffffffffffffffffebaaedce6af48a03bbfd25e8cd0364141

/-- Half the order, rounded down: the greatest `s` of a canonical signature. -/
def halfOrder : Nat := 0x7fffffffffffffffffffffffffffffff5d576e7357a4501ddfe92f46681b20a0

theorem halfOrder_eq : halfOrder = order / 2 := by decide

-- with the instance of `Zero` that numerals of `Fin` ask for
instance : @NeZero Nat Zero.ofOfNat0 prime := ⟨by decide⟩
instance : @NeZero Nat Zero.ofOfNat0 order := ⟨by decide⟩

/-- Bits of the coordinate prime. -/
def fieldBits : Nat := prime.log2 + 1

/-- Bytes of a coordinate. -/
def fieldBytes : Nat := (fieldBits + 7) / 8

/-- Coordinates. -/
abbrev Coord := Fin prime

/-- Multiples of the generator are counted modulo the order. -/
abbrev Scalar := Fin order

/-- The remainder of `a ^ e` for exponents below `2 ^ 256`, squaring from the top bit down. -/
def powerMod (modulus a e : Nat) : Nat :=
  (List.range 256).foldr
    (fun i acc => if e.testBit i then acc * acc % modulus * a % modulus else acc * acc % modulus) 1

namespace Coord

def power (a : Coord) (e : Nat) : Coord := Fin.ofNat prime (powerMod prime a.val e)

def inverse (a : Coord) : Coord := a.power (prime - 2)

/-- A square root of every square, since the prime is 3 modulo 4. -/
def root (a : Coord) : Coord := a.power ((prime + 1) / 4)

def isOdd (a : Coord) : Bool := a.val % 2 == 1

/-- The coordinate that a run of bytes writes, if it is below the prime. -/
def ofBytes? (bs : Bytes) : Option Coord := if h : bs.toNat < prime then some ⟨bs.toNat, h⟩ else none

def toBytes (a : Coord) : Bytes := Bytes.ofNat 32 a.val

end Coord

namespace Scalar

def power (a : Scalar) (e : Nat) : Scalar := Fin.ofNat order (powerMod order a.val e)

def inverse (a : Scalar) : Scalar := a.power (order - 2)

/-- The remainder of a number modulo the order. -/
def ofNat (n : Nat) : Scalar := Fin.ofNat order n

def ofBytes (bs : Bytes) : Scalar := ofNat bs.toNat

def toBytes (a : Scalar) : Bytes := Bytes.ofNat 32 a.val

end Scalar
end Wallet.Curve
