import Wallet.Curve.Jacobian
import Wallet.Key.Error

/-! Private keys: the scalars from 1 to the order less 1, read from bytes, numbers and texts. -/

namespace Wallet

structure PrivateKey where
  scalar : Curve.Scalar
  nonzero : scalar ≠ 0
  deriving DecidableEq

namespace PrivateKey

/-- Bytes of a private key. -/
def size : Nat := 32

/-- Whether a number is a nonzero scalar. -/
def isValidScalar (w : Word) : Bool := w ≠ 0 && w.toNat < Curve.order

def ofNat (n : Nat) : Except KeyError PrivateKey :=
  if h : n < Curve.order then
    if hz : (⟨n, h⟩ : Curve.Scalar) = 0 then .error .privateRange else .ok ⟨⟨n, h⟩, hz⟩
  else .error .privateRange

theorem ofNat_eq_ok {n : Nat} (hz : n ≠ 0) (h : n < Curve.order) : ∃ key, ofNat n = .ok key := by
  have hz : (⟨n, h⟩ : Curve.Scalar) ≠ 0 := fun e => hz (congrArg Fin.val e)
  exact ⟨⟨_, hz⟩, by rw [ofNat, dif_pos h, dif_neg hz]⟩

def ofBytes (bs : Bytes) : Except KeyError PrivateKey :=
  if bs.length = size then ofNat bs.toNat else .error (.privateLength bs.length)

def ofWord (w : Word) : Except KeyError PrivateKey := ofBytes w.toBytes

/-- At most 32 bytes of hex text, which write a big-endian number. -/
def ofHex (text : String) : Except KeyError PrivateKey := do
  let bs ← (Hex.parse text).mapError .hex
  if size < bs.length then throw (.privateLength bs.length)
  ofWord (Word.ofBytes bs)

def ofDecimal (text : String) : Except KeyError PrivateKey := do
  ofWord (← (Decimal.parse text).mapError .decimal)

def bytes (key : PrivateKey) : Bytes := key.scalar.toBytes

def word (key : PrivateKey) : Word := Word.ofBytes key.bytes

def hex (key : PrivateKey) : String := Hex.encode key.bytes

/-- What is shown of a private key in diagnostics: nothing. -/
def debug (_ : PrivateKey) : String := "PrivateKey(<redacted>)"

/-- The point that belongs to the key. -/
def publicPoint (key : PrivateKey) : Curve.Point := Curve.Point.mul key.scalar .generator

end PrivateKey
end Wallet
