import Wallet.Proofs.Curve.Residue

/-! Coordinates as residues: every operation on them is the one of the field of `prime` elements, and
equal residues are equal coordinates. Identities are proved in the field and read back. -/

namespace Wallet.Curve.Coord

/-- The element of the field that a coordinate stands for. -/
def residue (a : Coord) : ZMod prime := (a.val : ZMod prime)

variable {a b : Coord}

theorem residue_inj : residue a = residue b ↔ a = b := Residue.cast_inj

@[simp]
theorem residue_add (a b : Coord) : residue (a + b) = residue a + residue b := Residue.cast_add a b

@[simp]
theorem residue_mul (a b : Coord) : residue (a * b) = residue a * residue b := Residue.cast_mul a b

@[simp]
theorem residue_sub (a b : Coord) : residue (a - b) = residue a - residue b := Residue.cast_sub a b

@[simp]
theorem residue_neg (a : Coord) : residue (-a) = -residue a := Residue.cast_neg a

@[simp]
theorem residue_ofNat (n : Nat) : residue (Fin.ofNat prime n) = n := by
  unfold residue
  rw [Fin.val_ofNat, ZMod.natCast_mod]

@[simp]
theorem residue_literal (n : Nat) : residue (no_index (@OfNat.ofNat Coord n Fin.instOfNat)) = n :=
  residue_ofNat n

theorem residue_eq_zero : residue a = 0 ↔ a = 0 := by
  rw [← residue_inj, residue_literal, Nat.cast_zero]

theorem residue_power {e : Nat} (he : e < 2 ^ 256) : residue (a.power e) = residue a ^ e := by
  rw [power, residue_ofNat, cast_powerMod he]
  rfl

theorem residue_ne_zero : residue a ≠ 0 ↔ a ≠ 0 := residue_eq_zero.not

/-- The coordinate that stands for an element of the field. -/
def ofResidue (a : ZMod prime) : Coord := ⟨a.val, ZMod.val_lt a⟩

theorem residue_ofResidue (a : ZMod prime) : residue (ofResidue a) = a := ZMod.natCast_zmod_val a

theorem eq_ofResidue {b : ZMod prime} (h : residue a = b) : a = ofResidue b := by
  rw [← residue_inj, residue_ofResidue, h]

section Scaled

variable {d e : Coord} {u w : ZMod prime}

theorem residue_mul_sub (a : Coord) (he : residue e = w) (hd : residue d = u * w) :
    residue (a * e - d) = residue a * w - u * w := by
  rw [residue_sub, residue_mul, he, hd]

/-- The test whether a coordinate is one that is given scaled. -/
theorem mul_sub_eq_zero (a : Coord) (he : residue e = w) (hd : residue d = u * w) (hw : w ≠ 0) :
    a * e - d = 0 ↔ residue a = u := by
  rw [← residue_eq_zero, residue_mul_sub a he hd, sub_eq_zero]
  exact mul_left_inj' hw

end Scaled

theorem residue_inverse (a : Coord) : residue a.inverse = (residue a)⁻¹ := by
  rw [inverse, residue_power (by decide), Residue.pow_sub_two (by decide)]

/-- A power to `p - 2` undoes a nonzero factor. -/
theorem residue_mul_inverse (h : a ≠ 0) : residue a * residue a.inverse = 1 := by
  rw [residue_inverse, mul_inv_cancel₀ (residue_ne_zero.2 h)]

end Wallet.Curve.Coord
