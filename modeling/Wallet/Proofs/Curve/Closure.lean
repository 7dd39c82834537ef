import Mathlib.Tactic.LinearCombination
import Wallet.Curve.Jacobian
import Wallet.Proofs.Curve.Field

/-! Multiples of a point of the curve are points of the curve. The triples on the way keep the
equation `y² = x³ + 7 z⁶` (`Jacobian.OnCurve`), which doubling and addition preserve by identities of
polynomials; the division at the end then gives the affine equation. -/

namespace Wallet.Curve

section Identities

variable {F : Type} [Field F] {x y z x' y' : F}

theorem double_identity (h : y ^ 2 = x ^ 3 + 7 * z ^ 6) :
    let s := 4 * (x * y ^ 2)
    let m := 3 * x ^ 2
    let t := m ^ 2 - 2 * s
    (m * (s - t) - 8 * y ^ 4) ^ 2 = t ^ 3 + 7 * (2 * (y * z)) ^ 6 := by
  intro s m t
  simp only [t, s, m]
  linear_combination 64 * y ^ 6 * h

/-- The sum of two points with different abscissas, `r / d` being the slope between them. -/
theorem chord_identity (h : y ^ 2 = x ^ 3 + 7 * z ^ 6) (h' : y' ^ 2 = x' ^ 3 + 7)
    (hd : x' * z ^ 2 - x ≠ 0) :
    let d := x' * z ^ 2 - x
    let r := y' * z ^ 3 - y
    let v := x * d ^ 2
    let t := r ^ 2 - d ^ 3 - 2 * v
    (r * (v - t) - y * d ^ 3) ^ 2 = t ^ 3 + 7 * (d * z) ^ 6 := by
  intro d r v t
  -- the two equations over a common denominator, subtracted, and divided by the difference of the abscissas
  have hslope : r * (2 * (y * d ^ 3) + r * d ^ 3) = v ^ 2 + v * (v + d ^ 3) + (v + d ^ 3) ^ 2 := by
    refine mul_left_cancel₀ (pow_ne_zero 3 hd) ?_
    simp only [r, v, d]
    linear_combination (x' * z ^ 2 - x) ^ 6 * (z ^ 6 * h' - h)
  simp only [t]
  linear_combination d ^ 6 * h - (v - t) * hslope

theorem division_identity (h : y ^ 2 = x ^ 3 + 7 * z ^ 6) {w : F} (hw : z * w = 1) :
    (y * (w * w * w)) * (y * (w * w * w)) = x * (w * w) * (x * (w * w)) * (x * (w * w)) + 7 := by
  have hw6 : (z * w) ^ 6 = 1 := by rw [hw, one_pow]
  linear_combination w ^ 6 * h + 7 * hw6

end Identities

namespace Point

theorem onCurve_affine {x y : Coord} :
    (affine x y).OnCurve ↔ Coord.residue y ^ 2 = Coord.residue x ^ 3 + 7 := by
  rw [OnCurve, ← Coord.residue_inj]
  simp only [cubic, Coord.residue_mul, Coord.residue_add, Coord.residue_literal, Nat.cast_ofNat]
  rw [pow_two, pow_succ, pow_two]

end Point

namespace Jacobian

/-- The invariant of the triples: the point that they stand for is on the curve. -/
def OnCurve (p : Jacobian) : Prop :=
  p.z ≠ 0 → Coord.residue p.y ^ 2 = Coord.residue p.x ^ 3 + 7 * Coord.residue p.z ^ 6

variable {p : Jacobian} {x y : Coord}

theorem infinity_onCurve : infinity.OnCurve := by
  intro h
  exact absurd rfl h

theorem double_onCurve (h : p.OnCurve) : p.double.OnCurve := by
  intro hz
  have hpz : p.z ≠ 0 := by
    intro hzero
    apply hz
    rw [← Coord.residue_eq_zero] at hzero ⊢
    simp [double, hzero]
  have heq := double_identity (h hpz)
  simp only [double, Coord.residue_sub, Coord.residue_mul, Coord.residue_literal, Nat.cast_ofNat]
  linear_combination heq

theorem addAffine_onCurve (h : p.OnCurve) (hq : (Point.affine x y).OnCurve) : (p.addAffine x y).OnCurve := by
  rw [Point.onCurve_affine] at hq
  unfold addAffine
  split
  · intro
    simp only [Coord.residue_literal, Nat.cast_one]
    linear_combination hq
  · rename_i hz
    dsimp only
    split
    · split
      · exact double_onCurve h
      · exact infinity_onCurve
    · rename_i hd
      intro
      rw [← Coord.residue_eq_zero] at hd
      simp only [Coord.residue_sub, Coord.residue_mul] at hd
      have heq := chord_identity (h hz) hq (by rwa [pow_two])
      simp only [Coord.residue_sub, Coord.residue_mul, Coord.residue_literal, Nat.cast_ofNat]
      linear_combination heq

theorem multiple_onCurve (k : Nat) (hq : (Point.affine x y).OnCurve) : (multiple k x y).OnCurve := by
  unfold multiple
  induction List.range 256 with
  | nil => exact infinity_onCurve
  | cons i is ih =>
    rw [List.foldr_cons]
    split
    · exact addAffine_onCurve (double_onCurve ih) hq
    · exact double_onCurve ih

theorem toPoint_onCurve (h : p.OnCurve) : p.toPoint.OnCurve := by
  unfold toPoint
  split
  · trivial
  · rename_i hz
    have heq := division_identity (h hz) (Coord.residue_mul_inverse hz)
    rw [Point.onCurve_affine]
    simp only [Coord.residue_mul]
    linear_combination heq

end Jacobian

theorem Point.mul_onCurve (k : Scalar) {p : Point} (h : p.OnCurve) : (Point.mul k p).OnCurve := by
  cases p with
  | infinity => exact h
  | affine x y => exact Jacobian.toPoint_onCurve (Jacobian.multiple_onCurve k.val h)

theorem Point.generator_onCurve : generator.OnCurve := by
  decide +kernel

end Wallet.Curve
