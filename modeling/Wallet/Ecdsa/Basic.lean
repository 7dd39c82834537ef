import Wallet.Curve.Encoding
import Wallet.Curve.Jacobian
import Wallet.Ecdsa.Nonce

/-! The equation of ECDSA over a digest read as a scalar `z`, with `s` in the lower half of its
range, and the recovery of the key behind a signature. -/

namespace Wallet.Ecdsa

open Curve

/-- The digest as a scalar. -/
def challenge (digest : Digest) : Scalar := Scalar.ofBytes digest.toList

def isLow (s : Scalar) : Bool := s.val ≤ halfOrder

/-- Of `s` and `-s`, the one in the lower half. -/
def lower (s : Scalar) : Scalar := if isLow s then s else -s

/-- The abscissa of a point as a scalar, zero for infinity. -/
def abscissa : Point → Scalar
  | .infinity => 0
  | .affine x _ => Scalar.ofNat x.val

/-- The pair of `r` and `s` at a nonce, if neither is zero. -/
def signWith (secret z nonce : Scalar) : Option (Scalar × Scalar) :=
  let r := abscissa (Point.mul nonce .generator)
  let s := nonce.inverse * (z + r * secret)
  if r = 0 ∨ s = 0 then none else some (r, lower s)

def sign (secret : Scalar) (digest : Digest) (tries : Nat := nonceTries) : Option (Scalar × Scalar) := do
  signWith secret (challenge digest) (← nonce? secret digest tries)

/-- The nonce point that a signature claims under a key. -/
def claimedPoint (key : Point) (z r s : Scalar) : Point :=
  Point.add (Point.mul (z * s.inverse) .generator) (Point.mul (r * s.inverse) key)

/-- The equation, for `s` in either half. -/
def accepts (key : Point) (z r s : Scalar) : Bool :=
  match claimedPoint key z r s with
  | .infinity => false
  | .affine x _ => Scalar.ofNat x.val == r

def verify (key : Point) (z r s : Scalar) : Bool := isLow s && accepts key z r s

/-- Which nonce points have a given `r`: one bit for the parity of `y`, one for an `x` that is `r`
plus the order. -/
abbrev RecoveryId := Fin 4

namespace RecoveryId

def all : List RecoveryId := [0, 1, 2, 3]

def ofByte? (b : UInt8) : Option RecoveryId := if h : b.toNat < 4 then some ⟨b.toNat, h⟩ else none

def toByte (id : RecoveryId) : UInt8 := UInt8.ofNat id.val

def isOdd (id : RecoveryId) : Bool := id.val.testBit 0

def isReduced (id : RecoveryId) : Bool := id.val.testBit 1

end RecoveryId

/-- The nonce point with the given `r`. -/
def noncePoint? (r : Scalar) (id : RecoveryId) : Option Point :=
  let x := if id.isReduced then r.val + order else r.val
  if h : x < prime then Point.lift? ⟨x, h⟩ id.isOdd else none

/-- The key under which the equation holds with the nonce point `R`: `(s * R - z * G) / r`. -/
def keyAt (z r s : Scalar) (R : Point) : Point :=
  Point.add (Point.mul (-(r.inverse * z)) .generator) (Point.mul (r.inverse * s) R)

/-- The key that a signature with a recovery id belongs to. -/
def recover? (z r s : Scalar) (id : RecoveryId) : Option Point := do
  let key := keyAt z r s (← noncePoint? r id)
  if key ≠ .infinity ∧ verify key z r s then some key else none

end Wallet.Ecdsa
