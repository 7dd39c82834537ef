import Wallet.Curve.Field

/-! Points of `y² = x³ + 7` in affine coordinates, with the chord and tangent law. -/

namespace Wallet.Curve

inductive Point
  | infinity
  | affine (x y : Coord)
  deriving DecidableEq, Repr

namespace Point

/-- The right hand side of the curve's equation. -/
def cubic (x : Coord) : Coord := x * x * x + 7

def OnCurve : Point → Prop
  | infinity => True
  | affine x y => y * y = cubic x

instance (p : Point) : Decidable p.OnCurve :=
  match p with
  | infinity => .isTrue trivial
  | affine x y => inferInstanceAs (Decidable (y * y = cubic x))

def generator : Point := affine
  0x79be667ef9dcbbac55a06295ce870b07029bfcdb2dce28d959f2815b16f81798
  0x483ada7726a3c4655da4fbfc0e1108a8fd17b448a68554199c47d08ffb10d4b8

def neg : Point → Point
  | infinity => infinity
  | affine x y => affine x (-y)

/-- The third point on the line of the given slope through two points, reflected in the axis. -/
def alongLine (slope x₁ y₁ x₂ : Coord) : Point :=
  let x := slope * slope - x₁ - x₂
  affine x (slope * (x₁ - x) - y₁)

def add : Point → Point → Point
  | infinity, q => q
  | p, infinity => p
  | affine x₁ y₁, affine x₂ y₂ =>
    if x₁ = x₂ then
      if y₁ = y₂ ∧ y₁ ≠ 0 then alongLine (3 * (x₁ * x₁) * Coord.inverse (2 * y₁)) x₁ y₁ x₁ else infinity
    else alongLine ((y₂ - y₁) * Coord.inverse (x₂ - x₁)) x₁ y₁ x₂

/-- A point added to itself `n` times over. -/
def times : Nat → Point → Point
  | 0, _ => infinity
  | n + 1, p => add p (times n p)

/-- The point at `x` whose `y` has the given parity. -/
def lift? (x : Coord) (odd : Bool) : Option Point :=
  let y := (cubic x).root
  if y * y = cubic x then some (affine x (if y.isOdd = odd then y else -y)) else none

end Point
end Wallet.Curve
