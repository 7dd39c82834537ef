import Wallet.Curve.Encoding
import Wallet.Key.Error

/-! Public keys: points that keep the byte form in which they were given. Two keys are equal if
their bytes are, so the same point in two forms gives two keys. -/

namespace Wallet

structure PublicKey where
  form : Curve.Form
  point : Curve.Point
  deriving DecidableEq, Repr

namespace PublicKey

/-- What every key that is read or derived satisfies: a point of the curve other than infinity, with
even `y` where the form says so. -/
def Valid (key : PublicKey) : Prop :=
  match key.point with
  | .infinity => False
  | .affine x y => (Curve.Point.affine x y).OnCurve ∧ (key.form = .compact → y.isOdd = false)

def ofBytes (bs : Bytes) : Except KeyError PublicKey :=
  if bs.length ≠ Curve.Form.compressed.size ∧ bs.length ≠ Curve.Form.uncompressed.size then
    .error (.publicLength bs.length)
  else match Curve.Point.decode? bs with
    | some (form, point) => .ok ⟨form, point⟩
    | none => .error .notOnCurve

def ofHex (text : String) : Except KeyError PublicKey := do
  ofBytes (← (Hex.parse text).mapError .hex)

/-- The bytes that the key was read from. -/
def bytes (key : PublicKey) : Bytes := key.point.encode key.form

def isCompressed (key : PublicKey) : Bool := key.bytes.length == Curve.Form.compressed.size

/-- The same point in 33 bytes. -/
def compressed (key : PublicKey) : PublicKey := ⟨.compressed, key.point⟩

/-- The same point in 65 bytes. -/
def uncompressed (key : PublicKey) : PublicKey := ⟨.uncompressed, key.point⟩

def uncompressedBytes (key : PublicKey) : Bytes := key.uncompressed.bytes

def hex (key : PublicKey) : String := Hex.encode key.bytes

def debug (key : PublicKey) : String := s!"PublicKey({key.hex})"

end PublicKey
end Wallet
