import Mathlib.Algebra.Module.ZMod
import Mathlib.GroupTheory.Perm.Cycle.Type
import Wallet.Proofs.Curve.Group
import Wallet.Proofs.Curve.Scalar

/-! The group of the curve has `order` elements (`card_group`), so every point is annihilated by the order
and the scalars act on the points as a field on a vector space. The number of elements is a multiple of
the order of the generator; it is odd, since no point has `y = 0`; and it is at most twice the prime of
the coordinates and 1, since at most two points share an abscissa. One number is left. -/

namespace Wallet.Curve

open WeierstrassCurve

theorem cube_add_seven_ne_zero (x : ZMod prime) : x ^ 3 + 7 ≠ 0 := by
  intro h
  have hseven : (7 : ZMod prime) ≠ 0 := cast_ne_zero (n := 7) (by decide) (by decide)
  have hx : x ≠ 0 := by
    rintro rfl
    apply hseven
    linear_combination h
  have hcube : ((prime - 7 : Nat) : ZMod prime) = x ^ 3 := by
    rw [Nat.cast_sub (by decide), ZMod.natCast_self]
    push_cast
    linear_combination -h
  -- a cube would have the third part of the prime less 1 as an exponent
  have hpow : ((prime - 7 : Nat) : ZMod prime) ^ ((prime - 1) / 3) = (1 : Nat) := by
    rw [hcube, ← pow_mul, Nat.cast_one]
    exact ZMod.pow_card_sub_one_eq_one hx
  rw [← cast_powerMod (by decide), ZMod.natCast_eq_natCast_iff'] at hpow
  revert hpow
  decide +kernel

section Points

variable {x y y' : ZMod prime}

/-- No point lies on the axis. -/
theorem y_ne_zero (h : weierstrass.Nonsingular x y) : y ≠ 0 := by
  rintro rfl
  apply cube_add_seven_ne_zero x
  linear_combination -nonsingular_iff.1 h

/-- Points with one abscissa are equal or opposite. -/
theorem eq_or_eq_neg (h : weierstrass.Nonsingular x y) (h' : weierstrass.Nonsingular x y') :
    y = y' ∨ y = -y' := by
  rw [← negY_eq x y']
  exact Affine.Y_eq_of_X_eq h.1 h'.1 rfl

theorem odd_val_neg (hy : y ≠ 0) : (-y).val % 2 = 1 ↔ ¬y.val % 2 = 1 := by
  have hlt := ZMod.val_lt y
  have hodd : prime % 2 = 1 := by decide
  rw [ZMod.neg_val, if_neg hy]
  omega

theorem eq_of_odd_val_iff (h : weierstrass.Nonsingular x y) (h' : weierstrass.Nonsingular x y')
    (hodd : y.val % 2 = 1 ↔ y'.val % 2 = 1) : y = y' := by
  refine (eq_or_eq_neg h h').resolve_right ?_
  rintro rfl
  have hneg := odd_val_neg (y_ne_zero h')
  tauto

end Points

/-- A point by its abscissa and the parity of its ordinate. -/
def code : weierstrass.Point → Option (ZMod prime × Bool)
  | .zero => none
  | .some x y _ => some (x, decide (y.val % 2 = 1))

theorem code_injective : Function.Injective code := by
  intro P Q h
  cases P with
  | zero =>
    cases Q with
    | zero => rfl
    | some x y hxy => cases h
  | some x y hxy =>
    cases Q with
    | zero => cases h
    | some x' y' hxy' =>
      rw [code, code, Option.some.injEq, Prod.mk.injEq, decide_eq_decide] at h
      obtain ⟨rfl, hodd⟩ := h
      obtain rfl := eq_of_odd_val_iff hxy hxy' hodd
      rfl

instance : Finite weierstrass.Point := Finite.of_injective code code_injective

theorem card_group_le : Nat.card weierstrass.Point ≤ 2 * prime + 1 := by
  have hbool : Nat.card Bool = 2 := by rw [Nat.card_eq_fintype_card, Fintype.card_bool]
  have h := Nat.card_le_card_of_injective code code_injective
  rwa [Finite.card_option, Nat.card_prod, Nat.card_zmod, hbool, Nat.mul_comm] at h

theorem eq_zero_of_two_nsmul {P : weierstrass.Point} (h : 2 • P = 0) : P = 0 := by
  rw [two_nsmul, ← eq_neg_iff_add_eq_zero] at h
  cases P with
  | zero => rfl
  | some x y hxy =>
    rw [Affine.Point.neg_some, Affine.Point.some.injEq, negY_eq] at h
    have hy : 2 * y = 0 := by linear_combination h.2
    exact absurd hy (mul_ne_zero cast_two_ne_zero (y_ne_zero hxy))

theorem card_group_odd : ¬2 ∣ Nat.card weierstrass.Point := by
  intro h
  obtain ⟨P, hP⟩ := exists_prime_addOrderOf_dvd_card' 2 h
  have hzero : P = 0 := eq_zero_of_two_nsmul (hP ▸ addOrderOf_nsmul_eq_zero P)
  rw [hzero, addOrderOf_zero] at hP
  cases hP

theorem card_group : Nat.card weierstrass.Point = order := by
  obtain ⟨k, hk⟩ : order ∣ Nat.card weierstrass.Point := by
    rw [← Point.addOrderOf_base]
    exact addOrderOf_dvd_natCard Point.base
  have hle := card_group_le
  have hodd := card_group_odd
  have hpos : 0 < Nat.card weierstrass.Point := Nat.card_pos
  have hwide : 2 * prime + 1 < order * 3 := by decide
  rw [hk] at hle hodd hpos ⊢
  have hlt : k < 3 := Nat.lt_of_mul_lt_mul_left (hle.trans_lt hwide)
  have hne : k ≠ 2 := by
    rintro rfl
    exact hodd (Nat.dvd_mul_left 2 order)
  have hk0 : 0 < k := Nat.pos_of_mul_pos_left hpos
  rw [show k = 1 by omega, Nat.mul_one]

theorem order_nsmul (P : weierstrass.Point) : order • P = 0 := by
  rw [← card_group]
  exact card_nsmul_eq_zero'

instance : Module (ZMod order) weierstrass.Point := AddCommGroup.zmodModule order_nsmul

theorem residue_smul (k : Scalar) (P : weierstrass.Point) : Scalar.residue k • P = k.val • P :=
  Nat.cast_smul_eq_nsmul (ZMod order) k.val P

end Wallet.Curve
