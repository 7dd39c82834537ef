import Wallet.Proofs.Curve.Residue

/-! Scalars as residues modulo the order of the group, which is a prime: every operation on them is the
one of the field with as many elements. -/

namespace Wallet.Curve.Scalar

/-- The element of the field that a scalar stands for. -/
def residue (a : Scalar) : ZMod order := (a.val : ZMod order)

variable {a b : Scalar}

theorem residue_inj : residue a = residue b ↔ a = b := Residue.cast_inj

@[simp]
theorem residue_add (a b : Scalar) : residue (a + b) = residue a + residue b := Residue.cast_add a b

@[simp]
theorem residue_mul (a b : Scalar) : residue (a * b) = residue a * residue b := Residue.cast_mul a b

@[simp]
theorem residue_neg (a : Scalar) : residue (-a) = -residue a := Residue.cast_neg a

@[simp]
theorem residue_inverse (a : Scalar) : residue a.inverse = (residue a)⁻¹ := by
  have hpower : residue (a.power (order - 2)) = residue a ^ (order - 2) := by
    unfold residue power
    rw [Fin.val_ofNat, ZMod.natCast_mod, cast_powerMod (by decide)]
  rw [inverse, hpower, Residue.pow_sub_two (by decide)]

theorem residue_ofNat (n : Nat) : residue (ofNat n) = n := ZMod.natCast_mod n order

theorem residue_eq_zero : residue a = 0 ↔ a = 0 := by
  have hzero : residue (0 : Scalar) = 0 := Nat.cast_zero
  rw [← residue_inj, hzero]

theorem residue_ne_zero : residue a ≠ 0 ↔ a ≠ 0 := residue_eq_zero.not

end Wallet.Curve.Scalar
