import Wallet.Proofs.Curve.Order

/-! The chord and tangent law is the sum of the group (`Point.add_ofGroup`), and reflecting in the axis is
the opposite. With it, combinations of points of the curve are computed in the group, where a scalar acts
as an element of a field. The fast multiples are those that repeated addition gives (`Point.mul_eq_times`), and each
point is the multiple of the generator by one scalar. -/

namespace Wallet.Curve

open WeierstrassCurve
open Coord (residue ofResidue residue_ofResidue eq_ofResidue)

namespace Point

theorem exists_ofGroup {p : Point} (h : p.OnCurve) : ∃ P, ofGroup P = p := ⟨p.toGroup h, ofGroup_toGroup p h⟩

theorem ofGroup_onCurve (P : weierstrass.Point) : (ofGroup P).OnCurve := by
  cases P with
  | zero => trivial
  | some x y h =>
    refine onCurve_affine.2 ?_
    rw [residue_ofResidue, residue_ofResidue]
    exact nonsingular_iff.1 h

theorem ofGroup_injective : Function.Injective ofGroup := by
  intro P Q h
  cases P with
  | zero => exact (ofGroup_eq_infinity.1 h.symm).symm
  | some x y hxy =>
    cases Q with
    | zero => exact ofGroup_eq_infinity.1 h
    | some x' y' hxy' =>
      rw [ofGroup, ofGroup, Point.affine.injEq] at h
      obtain rfl : x = x' := by rw [← residue_ofResidue x, h.1, residue_ofResidue]
      obtain rfl : y = y' := by rw [← residue_ofResidue y, h.2, residue_ofResidue]
      rfl

theorem neg_ofGroup (P : weierstrass.Point) : (ofGroup P).neg = ofGroup (-P) := by
  cases P with
  | zero => rfl
  | some x y h =>
    rw [Affine.Point.neg_some]
    refine congrArg (affine (ofResidue x)) (eq_ofResidue ?_)
    rw [Coord.residue_neg, residue_ofResidue, negY_eq]

/-- Elements other than zero with the same abscissa are equal or opposite. -/
theorem eq_or_eq_neg_of_abscissa {P Q : weierstrass.Point} {x y y' : Coord} (hP : ofGroup P = affine x y)
    (hQ : ofGroup Q = affine x y') : P = Q ∨ P = -Q := by
  cases P with
  | zero => cases hP
  | some a b hab =>
    cases Q with
    | zero => cases hQ
    | some a' b' hab' =>
      rw [ofGroup, Point.affine.injEq] at hP hQ
      obtain rfl : a = a' := by rw [← residue_ofResidue a, hP.1, ← hQ.1, residue_ofResidue]
      rcases eq_or_eq_neg hab hab' with rfl | rfl
      · exact .inl rfl
      · right
        rw [Affine.Point.neg_some]
        simp only [negY_eq]

/-- The third point on a line, against the sum that the line's slope gives. -/
theorem alongLine_ofGroup {slope a b c : Coord} {l : ZMod prime} (hl : residue slope = l)
    (hsum : weierstrass.Nonsingular (l ^ 2 - residue a - residue c)
      (l * (residue a - (l ^ 2 - residue a - residue c)) - residue b)) :
    alongLine slope a b c = ofGroup (.some _ _ hsum) := by
  refine congrArg₂ affine (eq_ofResidue ?_) (eq_ofResidue ?_) <;>
    simp only [Coord.residue_sub, Coord.residue_mul, hl] <;> ring

theorem add_ofGroup (P Q : weierstrass.Point) : Point.add (ofGroup P) (ofGroup Q) = ofGroup (P + Q) := by
  cases P with
  | zero => rw [← Affine.Point.zero_def, zero_add]; rfl
  | some x y h =>
    cases Q with
    | zero => rw [← Affine.Point.zero_def, add_zero]; rfl
    | some x' y' h' =>
      obtain ⟨a, rfl⟩ : ∃ a, residue a = x := ⟨ofResidue x, residue_ofResidue x⟩
      obtain ⟨b, rfl⟩ : ∃ b, residue b = y := ⟨ofResidue y, residue_ofResidue y⟩
      obtain ⟨c, rfl⟩ : ∃ c, residue c = x' := ⟨ofResidue x', residue_ofResidue x'⟩
      obtain ⟨d, rfl⟩ : ∃ d, residue d = y' := ⟨ofResidue y', residue_ofResidue y'⟩
      rw [ofGroup_some, ofGroup_some, add]
      have hb : b ≠ 0 := Coord.residue_ne_zero.1 (y_ne_zero h)
      by_cases hx : a = c
      · subst hx
        rw [if_pos rfl]
        by_cases hy : b = d
        · subst hy
          rw [if_pos ⟨rfl, hb⟩]
          obtain ⟨l, hsum, hl, hadd⟩ := add_tangent h (y_ne_zero h)
          rw [hadd]
          refine alongLine_ofGroup ?_ hsum
          have hb2 : 2 * residue b ≠ 0 := mul_ne_zero cast_two_ne_zero (y_ne_zero h)
          refine mul_right_cancel₀ hb2 (Eq.trans ?_ hl.symm)
          simp only [Coord.residue_mul, Coord.residue_literal, Coord.residue_inverse, Nat.cast_ofNat]
          rw [inv_mul_cancel_right₀ hb2, pow_two]
        · rw [if_neg fun hxy => hy hxy.1]
          have hopposite : residue b = weierstrass.negY (residue a) (residue d) :=
            (Affine.Y_eq_of_X_eq h.1 h'.1 rfl).resolve_left (mt Coord.residue_inj.1 hy)
          rw [Affine.Point.add_of_Y_eq rfl hopposite]
          rfl
      · rw [if_neg hx]
        obtain ⟨l, hsum, hl, hadd⟩ := add_secant h h' (mt Coord.residue_inj.1 hx)
        rw [hadd]
        refine alongLine_ofGroup ?_ hsum
        have hd : residue a - residue c ≠ 0 := sub_ne_zero.2 (mt Coord.residue_inj.1 hx)
        have hd' : residue c - residue a ≠ 0 := sub_ne_zero.2 (mt Coord.residue_inj.1 (Ne.symm hx))
        refine mul_right_cancel₀ hd (Eq.trans ?_ hl.symm)
        simp only [Coord.residue_mul, Coord.residue_sub, Coord.residue_inverse]
        field_simp
        ring

/-- A scalar times a point is the action of the field of scalars. -/
theorem mul_ofGroup_smul (k : Scalar) (P : weierstrass.Point) :
    Point.mul k (ofGroup P) = ofGroup (Scalar.residue k • P) := by
  rw [mul_ofGroup, residue_smul]

theorem times_ofGroup (n : Nat) (P : weierstrass.Point) : times n (ofGroup P) = ofGroup (n • P) := by
  induction n with
  | zero =>
    rw [zero_nsmul]
    rfl
  | succ n ih => rw [times, ih, add_ofGroup, succ_nsmul']

theorem mul_eq_times {p : Point} (h : p.OnCurve) (k : Scalar) : Point.mul k p = times k.val p := by
  obtain ⟨P, rfl⟩ := exists_ofGroup h
  rw [mul_ofGroup, times_ofGroup]

theorem base_ne_zero : base ≠ 0 := by
  rw [Ne, ← ofGroup_eq_infinity, ofGroup_base]
  exact nofun

theorem mul_generator_injective : Function.Injective fun k => Point.mul k generator := by
  intro a b h
  dsimp only at h
  rw [← ofGroup_base, mul_ofGroup_smul, mul_ofGroup_smul, ofGroup_injective.eq_iff,
    (smul_left_injective _ base_ne_zero).eq_iff, Scalar.residue_inj] at h
  exact h

/-- The order of the group is prime, so the generator generates all of it. -/
theorem exists_mul_generator {p : Point} (h : p.OnCurve) : ∃ k, Point.mul k generator = p := by
  obtain ⟨P, rfl⟩ := exists_ofGroup h
  obtain ⟨n, hn⟩ : ∃ n : Nat, n • base = P := mem_multiples_of_prime_card card_group base_ne_zero
  refine ⟨Scalar.ofNat n, ?_⟩
  rw [← ofGroup_base, mul_ofGroup_smul, Scalar.residue_ofNat, Nat.cast_smul_eq_nsmul, hn]

end Point
end Wallet.Curve
