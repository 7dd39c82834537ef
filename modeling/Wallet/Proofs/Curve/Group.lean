import Mathlib.AlgebraicGeometry.EllipticCurve.Affine.Point
import Wallet.Proofs.Curve.Closure

/-! The points of the curve are the group that an elliptic curve has. `Point.ofGroup` reads a point off
an element of the group, and every point of the curve is read off one. The triples of the fast formulas
stand for elements of the group too (`Jacobian.Represents`), which doubling and addition respect in all
their cases, so that the multiples computed are those of the group (`Point.mul_ofGroup`). What holds in
every commutative group then holds of them: multiples commute (`Point.mul_swap`). The generator has the
order that the curve's parameters give. -/

namespace Wallet.Curve

open WeierstrassCurve

section Identities

variable {F : Type} [Field F] {x y x' y' z l : F}

/-- The fast formula of doubling, against the tangent of slope `l`. -/
theorem tangent_identity (hl : l * (2 * y) = 3 * x ^ 2) :
    let s := 4 * (x * z ^ 2 * (y * z ^ 3) ^ 2)
    let m := 3 * (x * z ^ 2) ^ 2
    let t := m ^ 2 - 2 * s
    let d := 2 * (y * z ^ 3 * z)
    t = (l ^ 2 - x - x) * d ^ 2 ∧
      m * (s - t) - 8 * (y * z ^ 3) ^ 4 = (l * (x - (l ^ 2 - x - x)) - y) * d ^ 3 := by
  intro s m t d
  have ht : t = (l ^ 2 - x - x) * d ^ 2 := by
    simp only [t, m, s, d]
    linear_combination -(z ^ 8) * (l * (2 * y) + 3 * x ^ 2) * hl
  refine ⟨ht, ?_⟩
  rw [ht]
  simp only [m, s, d]
  linear_combination -(4 * y ^ 2 * z ^ 12 * (x - (l ^ 2 - x - x))) * hl

/-- The fast formula of addition, against the secant of slope `l`. -/
theorem secant_identity (hl : l * (x - x') = y - y') :
    let d := x' * z ^ 2 - x * z ^ 2
    let r := y' * z ^ 3 - y * z ^ 3
    let v := x * z ^ 2 * d ^ 2
    let t := r ^ 2 - d ^ 3 - 2 * v
    t = (l ^ 2 - x - x') * (d * z) ^ 2 ∧
      r * (v - t) - y * z ^ 3 * d ^ 3 = (l * (x - (l ^ 2 - x - x')) - y) * (d * z) ^ 3 := by
  intro d r v t
  have hr : r = l * (d * z) := by
    simp only [r, d]
    linear_combination z ^ 3 * hl
  have ht : t = (l ^ 2 - x - x') * (d * z) ^ 2 := by
    simp only [t, hr, v, d]
    ring
  refine ⟨ht, ?_⟩
  rw [ht, hr]
  simp only [v]
  ring

end Identities

/-- The curve over the field of the coordinates. -/
def weierstrass : Affine (ZMod prime) := ⟨0, 0, 0, 0, (7 : Nat)⟩

theorem cast_ne_zero {n : Nat} (hpos : 0 < n) (hlt : n < prime) : (n : ZMod prime) ≠ 0 := by
  rw [Ne, ZMod.natCast_eq_zero_iff]
  exact Nat.not_dvd_of_pos_of_lt hpos hlt

theorem cast_two_ne_zero : (2 : ZMod prime) ≠ 0 :=
  cast_ne_zero (n := 2) (by decide) (by decide)

theorem discriminant_ne_zero : weierstrass.Δ ≠ 0 := by
  have hΔ : weierstrass.Δ = -(21168 : Nat) := by
    simp only [WeierstrassCurve.Δ, b₂, b₄, b₆, b₈, weierstrass]
    norm_num
  rw [hΔ, neg_ne_zero]
  exact cast_ne_zero (by decide) (by decide)

theorem nonsingular_iff {x y : ZMod prime} : weierstrass.Nonsingular x y ↔ y ^ 2 = x ^ 3 + 7 := by
  rw [← Affine.equation_iff_nonsingular_of_Δ_ne_zero discriminant_ne_zero, Affine.equation_iff]
  simp [weierstrass]

theorem negY_eq (x y : ZMod prime) : weierstrass.negY x y = -y := by
  simp [weierstrass]

section Sum

variable {x y x' y' : ZMod prime}

theorem add_of_slope {l : ZMod prime} (h : weierstrass.Nonsingular x y) (h' : weierstrass.Nonsingular x' y')
    (hne : ¬(x = x' ∧ y = -y')) (hl : weierstrass.slope x x' y y' = l) :
    ∃ hsum, Affine.Point.some x y h + Affine.Point.some x' y' h' =
      .some (l ^ 2 - x - x') (l * (x - (l ^ 2 - x - x')) - y) hsum := by
  have hsum := Affine.nonsingular_add h h' (by rwa [negY_eq])
  have hx : weierstrass.addX x x' l = l ^ 2 - x - x' := by simp [weierstrass]
  have hy : weierstrass.addY x x' y l = l * (x - (l ^ 2 - x - x')) - y := by
    rw [Affine.addY, negY_eq, Affine.negAddY, hx]
    ring
  rw [Affine.Point.add_some (by rwa [negY_eq])]
  rw [hl, hx, hy] at hsum
  exact ⟨hsum, by simp only [hl, hx, hy]⟩

theorem add_tangent (h : weierstrass.Nonsingular x y) (hy : y ≠ 0) :
    ∃ l hsum, l * (2 * y) = 3 * x ^ 2 ∧ Affine.Point.some x y h + Affine.Point.some x y h =
      .some (l ^ 2 - x - x) (l * (x - (l ^ 2 - x - x)) - y) hsum := by
  have hy2 : 2 * y ≠ 0 := mul_ne_zero cast_two_ne_zero hy
  have hne : y ≠ -y := by
    intro heq
    apply hy2
    linear_combination heq
  have hslope : weierstrass.slope x x y y = 3 * x ^ 2 / (2 * y) := by
    rw [Affine.slope_of_Y_ne rfl (by rwa [negY_eq]), negY_eq, sub_neg_eq_add, ← two_mul]
    simp [weierstrass]
  obtain ⟨hsum, hadd⟩ := add_of_slope h h (fun heq => hne heq.2) hslope
  exact ⟨_, hsum, div_mul_cancel₀ _ hy2, hadd⟩

theorem add_secant (h : weierstrass.Nonsingular x y) (h' : weierstrass.Nonsingular x' y') (hx : x ≠ x') :
    ∃ l hsum, l * (x - x') = y - y' ∧ Affine.Point.some x y h + Affine.Point.some x' y' h' =
      .some (l ^ 2 - x - x') (l * (x - (l ^ 2 - x - x')) - y) hsum := by
  obtain ⟨hsum, hadd⟩ := add_of_slope h h' (fun heq => hx heq.1) (Affine.slope_of_X_ne hx)
  exact ⟨_, hsum, div_mul_cancel₀ _ (sub_ne_zero.2 hx), hadd⟩

end Sum

open Coord (residue ofResidue residue_ofResidue eq_ofResidue)

namespace Point

def ofGroup : weierstrass.Point → Point
  | .zero => infinity
  | .some x y _ => affine (ofResidue x) (ofResidue y)

/-- The element of the group that a point of the curve is. -/
def toGroup : (p : Point) → p.OnCurve → weierstrass.Point
  | infinity, _ => 0
  | affine x y, h => .some (residue x) (residue y) (nonsingular_iff.2 (onCurve_affine.1 h))

theorem ofGroup_toGroup (p : Point) (h : p.OnCurve) : ofGroup (p.toGroup h) = p := by
  cases p with
  | infinity => rfl
  | affine x y =>
    change affine (ofResidue (residue x)) (ofResidue (residue y)) = affine x y
    rw [← eq_ofResidue rfl, ← eq_ofResidue rfl]

theorem ofGroup_some {a b : Coord} (h : weierstrass.Nonsingular (residue a) (residue b)) :
    ofGroup (.some _ _ h) = affine a b :=
  congrArg₂ affine (eq_ofResidue rfl).symm (eq_ofResidue rfl).symm

theorem ofGroup_eq_infinity {P : weierstrass.Point} : ofGroup P = infinity ↔ P = 0 := by
  cases P with
  | zero => exact iff_of_true rfl rfl
  | some x y h => exact iff_of_false nofun (Affine.Point.some_ne_zero h)

end Point

namespace Jacobian

/-- A triple stands for an element of the group. -/
inductive Represents (p : Jacobian) : weierstrass.Point → Prop
  | zero (hz : p.z = 0) : Represents p 0
  | some {x y : ZMod prime} (hxy : weierstrass.Nonsingular x y) (hz : p.z ≠ 0)
      (hx : residue p.x = x * residue p.z ^ 2) (hy : residue p.y = y * residue p.z ^ 3) :
      Represents p (.some x y hxy)

variable {p : Jacobian} {P Q : weierstrass.Point} {x y : Coord}

theorem represents_infinity : infinity.Represents 0 := .zero rfl

theorem toPoint_of_represents (h : p.Represents P) : p.toPoint = Point.ofGroup P := by
  unfold toPoint
  cases h with
  | zero hz =>
    rw [if_pos hz]
    rfl
  | @some x y _ hz hx hy =>
    have hinv := Coord.residue_mul_inverse hz
    rw [if_neg hz]
    refine congrArg₂ Point.affine (eq_ofResidue ?_) (eq_ofResidue ?_)
    · simp only [Coord.residue_mul, hx]
      linear_combination x * (residue p.z * residue (Coord.inverse p.z) + 1) * hinv
    · simp only [Coord.residue_mul, hy]
      have hcube : (residue p.z * residue (Coord.inverse p.z)) ^ 3 = 1 := by rw [hinv, one_pow]
      linear_combination y * hcube

theorem represents_double (h : p.Represents P) : p.double.Represents (P + P) := by
  have hdouble : residue p.double.z = 2 * (residue p.y * residue p.z) := by
    simp only [double, Coord.residue_mul, Coord.residue_literal, Nat.cast_ofNat]
  cases h with
  | zero hz =>
    rw [add_zero]
    refine .zero ?_
    rw [← Coord.residue_eq_zero] at hz ⊢
    rw [hdouble, hz, mul_zero, mul_zero]
  | @some x y hxy hz hx hy =>
    by_cases hzero : y = 0
    · rw [Affine.Point.add_of_Y_eq rfl (by rw [negY_eq, hzero, neg_zero])]
      refine .zero ?_
      rw [← Coord.residue_eq_zero, hdouble, hy, hzero, zero_mul, zero_mul, mul_zero]
    · obtain ⟨l, hsum, hl, hadd⟩ := add_tangent hxy hzero
      obtain ⟨hx', hy'⟩ := tangent_identity (z := residue p.z) hl
      rw [hadd]
      refine .some hsum ?_ ?_ ?_
      · rw [← Coord.residue_ne_zero] at hz ⊢
        rw [hdouble, hy]
        exact mul_ne_zero cast_two_ne_zero (mul_ne_zero (mul_ne_zero hzero (pow_ne_zero 3 hz)) hz)
      · rw [hdouble, hy, ← hx']
        simp only [double, Coord.residue_sub, Coord.residue_mul, Coord.residue_literal, Nat.cast_ofNat, hx, hy]
        ring
      · rw [hdouble, hy, ← hy']
        simp only [double, Coord.residue_sub, Coord.residue_mul, Coord.residue_literal, Nat.cast_ofNat, hx, hy]
        ring

theorem represents_addAffine (h : p.Represents P) (hq : weierstrass.Nonsingular (residue x) (residue y)) :
    (p.addAffine x y).Represents (P + .some _ _ hq) := by
  unfold addAffine
  cases h with
  | zero hz =>
    have hone : residue (1 : Coord) = 1 := by rw [Coord.residue_literal, Nat.cast_one]
    rw [if_pos hz, zero_add]
    refine .some hq (Coord.residue_ne_zero.1 (hone ▸ one_ne_zero)) ?_ ?_ <;> simp only [hone, one_pow, mul_one]
  | @some a b hab hz hx hy =>
    rw [if_neg hz]
    rw [← Coord.residue_ne_zero] at hz
    -- the comparisons of the fast formula are those of the coordinates
    have hsquare : residue (p.z * p.z) = residue p.z ^ 2 := by rw [Coord.residue_mul, pow_two]
    have hcube : residue (p.z * p.z * p.z) = residue p.z ^ 3 := by rw [Coord.residue_mul, hsquare, ← pow_succ]
    have hd := Coord.residue_mul_sub x hsquare hx
    have hsame := Coord.mul_sub_eq_zero x hsquare hx (pow_ne_zero 2 hz)
    have hequal := Coord.mul_sub_eq_zero y hcube hy (pow_ne_zero 3 hz)
    dsimp only
    by_cases hxa : residue x = a
    · rw [if_pos (hsame.2 hxa)]
      by_cases hyb : residue y = b
      · rw [if_pos (hequal.2 hyb)]
        subst hxa hyb
        exact represents_double (.some hab (Coord.residue_ne_zero.1 hz) hx hy)
      · rw [if_neg (mt hequal.1 hyb)]
        have hopposite : b = weierstrass.negY (residue x) (residue y) :=
          (Affine.Y_eq_of_X_eq hab.1 hq.1 hxa.symm).resolve_left (Ne.symm hyb)
        rw [Affine.Point.add_of_Y_eq hxa.symm hopposite]
        exact represents_infinity
    · rw [if_neg (mt hsame.1 hxa)]
      obtain ⟨l, hsum, hl, hadd⟩ := add_secant hab hq (Ne.symm hxa)
      obtain ⟨hx', hy'⟩ := secant_identity (z := residue p.z) hl
      rw [hadd]
      refine .some hsum ?_ ?_ ?_
      · rw [← Coord.residue_ne_zero, Coord.residue_mul]
        exact mul_ne_zero (Coord.residue_ne_zero.2 (mt hsame.1 hxa)) hz
      · rw [Coord.residue_mul, hd, ← hx']
        simp only [Coord.residue_sub, Coord.residue_mul, Coord.residue_literal, Nat.cast_ofNat, hx, hy]
        ring
      · rw [Coord.residue_mul, hd, ← hy']
        simp only [Coord.residue_sub, Coord.residue_mul, Coord.residue_literal, Nat.cast_ofNat, hx, hy]
        ring

/-- Over the low `n` bits of the factor, from a triple that the higher ones have left. -/
theorem represents_foldr (k : Nat) (hq : weierstrass.Nonsingular (residue x) (residue y)) :
    ∀ (n : Nat) (p : Jacobian) (P : weierstrass.Point), p.Represents P →
      ((List.range n).foldr
        (fun i acc => if k.testBit i then addAffine (double acc) x y else double acc) p).Represents
        (2 ^ n • P + (k % 2 ^ n) • Affine.Point.some _ _ hq) := by
  intro n
  induction n with
  | zero =>
    intro p P h
    simpa [Nat.mod_one] using h
  | succ n ih =>
    intro p P h
    have hmod : k % 2 ^ (n + 1) = k % 2 ^ n + 2 ^ n * (k / 2 ^ n % 2) := by
      rw [pow_succ, Nat.mod_mul]
    have hdouble : (2 ^ (n + 1)) • P = 2 ^ n • (P + P) := by
      rw [pow_succ, mul_nsmul', two_nsmul]
    rw [List.range_succ, List.foldr_append, List.foldr_cons, List.foldr_nil, hmod, hdouble,
      Nat.testBit_eq_decide_div_mod_eq]
    rcases Nat.mod_two_eq_zero_or_one (k / 2 ^ n) with hbit | hbit
    · simp only [hbit, zero_ne_one, decide_false, Bool.false_eq_true, if_false, mul_zero, add_zero]
      exact ih _ _ (represents_double h)
    · simp only [hbit, decide_true, if_true, mul_one]
      have hadd := ih _ _ (represents_addAffine (represents_double h) hq)
      rw [nsmul_add, add_assoc] at hadd
      rwa [add_comm (k % 2 ^ n), add_nsmul]

theorem represents_multiple {k : Nat} (hk : k < 2 ^ 256)
    (hq : weierstrass.Nonsingular (residue x) (residue y)) :
    (multiple k x y).Represents (k • Affine.Point.some _ _ hq) := by
  have h := represents_foldr k hq 256 infinity 0 represents_infinity
  rwa [nsmul_zero, zero_add, Nat.mod_eq_of_lt hk] at h

end Jacobian

namespace Point

theorem mul_ofGroup (k : Scalar) (P : weierstrass.Point) : Point.mul k (ofGroup P) = ofGroup (k.val • P) := by
  cases P with
  | zero =>
    have hzero : k.val • (0 : weierstrass.Point) = 0 := nsmul_zero k.val
    change infinity = ofGroup (k.val • 0)
    rw [hzero]
    rfl
  | some x y h =>
    have hk : k.val < 2 ^ 256 := k.isLt.trans (by decide)
    obtain ⟨a, rfl⟩ : ∃ a, residue a = x := ⟨ofResidue x, residue_ofResidue x⟩
    obtain ⟨b, rfl⟩ : ∃ b, residue b = y := ⟨ofResidue y, residue_ofResidue y⟩
    rw [ofGroup_some]
    exact Jacobian.toPoint_of_represents (Jacobian.represents_multiple hk h)

theorem one_mul {p : Point} (h : p.OnCurve) : Point.mul 1 p = p := by
  have hone : (1 : Scalar).val = 1 := rfl
  rw [← ofGroup_toGroup p h, mul_ofGroup, hone, one_nsmul]

/-- Multiples are taken in either order. -/
theorem mul_swap {p : Point} (h : p.OnCurve) (a b : Scalar) :
    Point.mul a (Point.mul b p) = Point.mul b (Point.mul a p) := by
  rw [← ofGroup_toGroup p h]
  simp only [mul_ofGroup]
  rw [← mul_nsmul, ← mul_nsmul, Nat.mul_comm]

/-- The generator as an element of the group. -/
def base : weierstrass.Point := generator.toGroup generator_onCurve

theorem ofGroup_base : ofGroup base = generator := ofGroup_toGroup generator generator_onCurve

theorem order_nsmul_base : order • base = 0 := by
  have horder : (Jacobian.multiple order
      0x79be667ef9dcbbac55a06295ce870b07029bfcdb2dce28d959f2815b16f81798
      0x483ada7726a3c4655da4fbfc0e1108a8fd17b448a68554199c47d08ffb10d4b8).toPoint = infinity := by
    decide +kernel
  have h := Jacobian.represents_multiple (k := order) (by decide)
    (nonsingular_iff.2 (onCurve_affine.1 generator_onCurve))
  exact ofGroup_eq_infinity.1 ((Jacobian.toPoint_of_represents h).symm.trans horder)

theorem addOrderOf_base : addOrderOf base = order := by
  refine addOrderOf_eq_prime order_nsmul_base ?_
  rw [Ne, ← ofGroup_eq_infinity, ofGroup_base]
  exact nofun

/-- No nonzero multiple of the generator is infinity. -/
theorem mul_generator_ne_infinity {k : Scalar} (h : k ≠ 0) : Point.mul k generator ≠ infinity := by
  rw [← ofGroup_base, mul_ofGroup, Ne, ofGroup_eq_infinity, ← addOrderOf_dvd_iff_nsmul_eq_zero,
    addOrderOf_base]
  exact Nat.not_dvd_of_pos_of_lt (Nat.pos_of_ne_zero (Fin.val_ne_zero_iff.2 h)) k.isLt

end Point
end Wallet.Curve
