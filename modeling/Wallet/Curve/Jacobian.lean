import Wallet.Curve.Point

/-! Multiples of a point without an inversion at each step. The triple `(x, y, z)` with `z ≠ 0`
stands for the affine point `(x / z², y / z³)`, and every triple with `z = 0` for infinity. -/

namespace Wallet.Curve

structure Jacobian where
  x : Coord
  y : Coord
  z : Coord
  deriving DecidableEq, Repr

namespace Jacobian

def infinity : Jacobian := ⟨1, 1, 0⟩

def double (p : Jacobian) : Jacobian :=
  let yy := p.y * p.y
  let s := 4 * (p.x * yy)
  let m := 3 * (p.x * p.x)
  let x := m * m - 2 * s
  ⟨x, m * (s - x) - 8 * (yy * yy), 2 * (p.y * p.z)⟩

/-- The sum with the affine point `(x, y)`. -/
def addAffine (p : Jacobian) (x y : Coord) : Jacobian :=
  if p.z = 0 then ⟨x, y, 1⟩
  else
    let zz := p.z * p.z
    let h := x * zz - p.x
    let r := y * (zz * p.z) - p.y
    if h = 0 then
      if r = 0 then double p else infinity
    else
      let hh := h * h
      let hhh := h * hh
      let v := p.x * hh
      let x := r * r - hhh - 2 * v
      ⟨x, r * (v - x) - p.y * hhh, h * p.z⟩

def toPoint (p : Jacobian) : Point :=
  if p.z = 0 then .infinity
  else
    let i := Coord.inverse p.z
    let ii := i * i
    .affine (p.x * ii) (p.y * (ii * i))

/-- The affine point `(x, y)` taken `k` times, for `k` below `2 ^ 256`. -/
def multiple (k : Nat) (x y : Coord) : Jacobian :=
  (List.range 256).foldr (fun i acc => if k.testBit i then addAffine (double acc) x y else double acc) infinity

end Jacobian

/-- A scalar times a point. -/
def Point.mul (k : Scalar) : Point → Point
  | .infinity => .infinity
  | .affine x y => (Jacobian.multiple k.val x y).toPoint

end Wallet.Curve
