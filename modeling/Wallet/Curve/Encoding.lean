import Wallet.Curve.Point

/-! The byte forms of a point: a tag that tells the form and, where `y` is left out, its parity,
then the coordinates. The compact form names the point with even `y`. -/

namespace Wallet.Curve

inductive Form
  | compressed
  | uncompressed
  | compact
  deriving DecidableEq, Repr

namespace Form

/-- Bytes of a point in this form. -/
def size : Form → Nat
  | .compressed => 33
  | .uncompressed => 65
  | .compact => 33

end Form

/-- Tag of the uncompressed form. -/
def uncompressedTag : UInt8 := 0x04

namespace Point

def encode (form : Form) : Point → Bytes
  | infinity => [0x00]
  | affine x y =>
    match form with
    | .compressed => (if y.isOdd then 0x03 else 0x02) :: x.toBytes
    | .uncompressed => uncompressedTag :: (x.toBytes ++ y.toBytes)
    | .compact => 0x05 :: x.toBytes

/-- The point with the given `x` in bytes and a `y` of the given parity. -/
def ofAbscissa? (bs : Bytes) (odd : Bool) : Option Point := do lift? (← Coord.ofBytes? bs) odd

/-- The point with the given coordinates in bytes. -/
def ofCoordinates? (xs ys : Bytes) : Option Point := do
  let x ← Coord.ofBytes? xs
  let y ← Coord.ofBytes? ys
  if (affine x y).OnCurve then some (affine x y) else none

/-- The form and the point that a byte string writes. -/
def decode? : Bytes → Option (Form × Point)
  | [] => none
  | tag :: body =>
    if tag = uncompressedTag then
      if body.length = 64 then (ofCoordinates? (body.take 32) (body.drop 32)).map (.uncompressed, ·) else none
    else if body.length ≠ 32 then none
    else if tag = 0x02 then (ofAbscissa? body false).map (.compressed, ·)
    else if tag = 0x03 then (ofAbscissa? body true).map (.compressed, ·)
    else if tag = 0x05 then (ofAbscissa? body false).map (.compact, ·)
    else none

end Point
end Wallet.Curve
