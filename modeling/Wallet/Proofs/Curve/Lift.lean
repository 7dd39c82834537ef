import Wallet.Proofs.Curve.Order

/-! Points by their abscissa. Two points of the curve share one only if they are opposite, which the parity
of the ordinate tells (`Point.ordinate_eq_of_isOdd`), and lifting an abscissa finds the point of the given
parity wherever there is one (`Point.lift?_eq_some`). -/

namespace Wallet.Curve

namespace Coord

theorem isOdd_neg {y : Coord} (h : y ≠ 0) : (-y).isOdd = !y.isOdd := by
  have hpos : 0 < y.val := Nat.pos_of_ne_zero (Fin.val_ne_zero_iff.2 h)
  have hlt := y.isLt
  have hodd : prime % 2 = 1 := by decide
  have hval : (-y).val = prime - y.val := by
    rw [Fin.val_neg', Nat.mod_eq_of_lt (by omega)]
  rw [isOdd, isOdd, hval, beq_eq_decide, beq_eq_decide, ← decide_not, decide_eq_decide]
  omega

/-- The root of a square is one, since the prime is 3 modulo 4. -/
theorem root_mul_root {a b : Coord} (h : b * b = a) : a.root * a.root = a := by
  have hexp : (prime + 1) / 4 * 2 * 2 = prime + 1 := by decide
  have hsquare : residue a = residue b ^ 2 := by rw [← h, residue_mul, pow_two]
  rw [← residue_inj, residue_mul, root, residue_power (by decide), ← pow_two, ← pow_mul, hsquare, ← pow_mul,
    Nat.mul_comm 2, hexp, pow_succ, ZMod.pow_card, pow_two]

end Coord

namespace Point

open Coord (residue)

variable {x y y' : Coord}

theorem nonsingular_of_onCurve (h : (affine x y).OnCurve) : weierstrass.Nonsingular (residue x) (residue y) :=
  nonsingular_iff.2 (onCurve_affine.1 h)

theorem onCurve_neg (h : (affine x y).OnCurve) : (affine x (-y)).OnCurve := by
  rw [onCurve_affine] at h ⊢
  rw [Coord.residue_neg, neg_sq, h]

theorem ordinate_ne_zero (h : (affine x y).OnCurve) : y ≠ 0 :=
  Coord.residue_ne_zero.1 (y_ne_zero (nonsingular_of_onCurve h))

theorem ordinate_eq_or_eq_neg (h : (affine x y).OnCurve) (h' : (affine x y').OnCurve) : y = y' ∨ y = -y' := by
  rw [← Coord.residue_inj, ← Coord.residue_inj, Coord.residue_neg]
  exact eq_or_eq_neg (nonsingular_of_onCurve h) (nonsingular_of_onCurve h')

theorem ordinate_eq_of_isOdd (h : (affine x y).OnCurve) (h' : (affine x y').OnCurve)
    (hodd : y.isOdd = y'.isOdd) : y = y' := by
  refine (ordinate_eq_or_eq_neg h h').resolve_right ?_
  rintro rfl
  rw [Coord.isOdd_neg (ordinate_ne_zero h')] at hodd
  exact Bool.not_ne_self _ hodd

theorem lift?_eq_some {odd : Bool} {p : Point} :
    lift? x odd = some p ↔ ∃ y, p = affine x y ∧ (affine x y).OnCurve ∧ y.isOdd = odd := by
  rw [lift?]
  refine ⟨fun h => ?_, fun h => ?_⟩
  · rw [Option.ite_none_right_eq_some, Option.some.injEq] at h
    obtain ⟨hroot, rfl⟩ := h
    have hcurve : (affine x (cubic x).root).OnCurve := hroot
    by_cases hodd : (cubic x).root.isOdd = odd
    · rw [if_pos hodd]
      exact ⟨_, rfl, hcurve, hodd⟩
    · rw [if_neg hodd]
      refine ⟨_, rfl, onCurve_neg hcurve, ?_⟩
      rw [Coord.isOdd_neg (ordinate_ne_zero hcurve)]
      exact Bool.not_eq.2 hodd
  · obtain ⟨y, rfl, hcurve, rfl⟩ := h
    have hroot : (cubic x).root * (cubic x).root = cubic x := Coord.root_mul_root hcurve
    have hcurve' : (affine x (cubic x).root).OnCurve := hroot
    rw [if_pos hroot, Option.some.injEq]
    congr 1
    split
    · rename_i hodd
      exact ordinate_eq_of_isOdd hcurve' hcurve hodd
    · rename_i hodd
      refine ordinate_eq_of_isOdd (onCurve_neg hcurve') hcurve ?_
      rw [Coord.isOdd_neg (ordinate_ne_zero hcurve')]
      exact Bool.not_eq.2 hodd

end Point
end Wallet.Curve
