import Wallet.Proofs.Ecdsa.Equation

/-! The equation of ECDSA as it is written in the group, without a rule for `s`. Replacing `s` by its opposite is
replacing the nonce point by its opposite, which has the same abscissa and the other parity; so neither the
equation nor the key that is recovered from it can tell the two (`holds_neg`, `recovers_neg`). Where `s` is low, they
are what verification and recovery compute. -/

namespace Wallet.Ecdsa

open Curve
open Curve.Point (ofGroup base)
open WeierstrassCurve

variable {z r s : ZMod order} {odd : Bool} {Q Q' R : weierstrass.Point}

/-- A point other than zero whose abscissa has the remainder `r`. -/
def HasRemainder (r : ZMod order) (R : weierstrass.Point) : Prop :=
  ∃ x y h, R = .some x y h ∧ (x.val : ZMod order) = r

/-- The point with the abscissa `r` and the given parity. -/
def IsNoncePoint (r : ZMod order) (odd : Bool) (R : weierstrass.Point) : Prop :=
  ∃ x y h, R = .some x y h ∧ x.val = r.val ∧ (y.val % 2 = 1 ↔ odd = true)

/-- The nonce point under a key has the remainder `r`. -/
def Holds (Q : weierstrass.Point) (z r s : ZMod order) : Prop := HasRemainder r ((z / s) • base + (r / s) • Q)

/-- The key that a nonce point with the abscissa `r` belongs to. -/
def Recovers (z r s : ZMod order) (odd : Bool) (Q : weierstrass.Point) : Prop :=
  ∃ R, IsNoncePoint r odd R ∧ Q = r⁻¹ • (s • R - z • base)

theorem HasRemainder.neg (h : HasRemainder r R) : HasRemainder r (-R) := by
  obtain ⟨x, y, hxy, rfl, hx⟩ := h
  exact ⟨x, _, _, Affine.Point.neg_some hxy, hx⟩

theorem IsNoncePoint.neg (h : IsNoncePoint r odd R) : IsNoncePoint r (!odd) (-R) := by
  obtain ⟨x, y, hxy, rfl, hx, hy⟩ := h
  refine ⟨x, _, _, Affine.Point.neg_some hxy, hx, ?_⟩
  rw [negY_eq, odd_val_neg (y_ne_zero hxy), hy]
  cases odd <;> simp

/-- An abscissa and a parity name one point at most. -/
theorem IsNoncePoint.unique (h : IsNoncePoint r odd R) {R' : weierstrass.Point} (h' : IsNoncePoint r odd R') :
    R = R' := by
  obtain ⟨x, y, hxy, rfl, hx, hy⟩ := h
  obtain ⟨x', y', hxy', rfl, hx', hy'⟩ := h'
  obtain rfl : x = x' := ZMod.val_injective _ (hx.trans hx'.symm)
  obtain rfl := eq_of_odd_val_iff hxy hxy' (hy.trans hy'.symm)
  rfl

theorem Recovers.unique (h : Recovers z r s odd Q) (h' : Recovers z r s odd Q') : Q = Q' := by
  obtain ⟨R, hR, rfl⟩ := h
  obtain ⟨R', hR', rfl⟩ := h'
  rw [hR.unique hR']

theorem Holds.neg (h : Holds Q z r s) : Holds Q z r (-s) := by
  have hopposite : (z / -s) • base + (r / -s) • Q = -((z / s) • base + (r / s) • Q) := by
    rw [div_neg, div_neg, neg_smul, neg_smul, neg_add]
  rw [Holds, hopposite]
  exact HasRemainder.neg h

theorem holds_neg : Holds Q z r (-s) ↔ Holds Q z r s :=
  ⟨fun h => neg_neg s ▸ h.neg, Holds.neg⟩

theorem Recovers.neg (h : Recovers z r s odd Q) : Recovers z r (-s) (!odd) Q := by
  obtain ⟨R, hR, rfl⟩ := h
  exact ⟨-R, hR.neg, by rw [neg_smul_neg]⟩

theorem recovers_neg : Recovers z r (-s) (!odd) Q ↔ Recovers z r s odd Q :=
  ⟨fun h => by simpa using h.neg, Recovers.neg⟩

/-- The equation solved for the nonce point. -/
theorem recovers_iff (hr : r ≠ 0) (hs : s ≠ 0) :
    Recovers z r s odd Q ↔ IsNoncePoint r odd ((z / s) • base + (r / s) • Q) := by
  have hsolved (R : weierstrass.Point) :
      Q = r⁻¹ • (s • R - z • base) ↔ (z / s) • base + (r / s) • Q = R := by
    rw [div_eq_mul_inv, div_eq_mul_inv, ← solved_iff hr hs, eq_comm, smul_sub, smul_smul, smul_smul, neg_smul,
      neg_add_eq_sub]
  constructor
  · rintro ⟨R, hR, hQ⟩
    rwa [(hsolved R).1 hQ]
  · exact fun h => ⟨_, h, (hsolved _).2 rfl⟩

/-- The equation holds for a key that is recovered. -/
theorem Recovers.holds (hr : r ≠ 0) (hs : s ≠ 0) (h : Recovers z r s odd Q) : Holds Q z r s := by
  obtain ⟨x, y, hxy, hR, hx, -⟩ := (recovers_iff hr hs).1 h
  exact ⟨x, y, hxy, hR, by rw [hx, ZMod.natCast_zmod_val]⟩

/-- Of a secret, the key is recovered from what was made with it. -/
theorem recovers_of_equation {d k : ZMod order} (hr : r ≠ 0) (hR : IsNoncePoint r odd (k • base))
    (h : k * s = z + r * d) : Recovers z r s odd (d • base) := by
  refine ⟨_, hR, ?_⟩
  have hd : r⁻¹ * (s * k - z) = d := by
    rw [mul_comm s, h, add_sub_cancel_left, inv_mul_cancel_left₀ hr]
  rw [smul_smul, ← sub_smul, smul_smul, hd]

/-! Against verification and recovery -/

section Computed

open Curve.Scalar (residue)

variable {z r s : Scalar}

theorem RecoveryId.ofBits_inj {odd reduced odd' reduced' : Bool} :
    ofBits odd reduced = ofBits odd' reduced' ↔ odd = odd' ∧ reduced = reduced' := by
  revert odd reduced odd' reduced'
  decide

theorem hasRemainder_residue :
    HasRemainder (residue r) R ↔ ∃ x y, ofGroup R = .affine x y ∧ x.val % order = r.val := by
  cases R with
  | zero => exact iff_of_false nofun nofun
  | some x y hxy =>
    have hx : (x.val : ZMod order) = residue r ↔ x.val % order = r.val := by
      rw [Scalar.residue, ZMod.natCast_eq_natCast_iff', Nat.mod_eq_of_lt r.isLt]
    constructor
    · rintro ⟨x', y', hxy', hR, hr⟩
      cases hR
      exact ⟨_, _, rfl, hx.1 hr⟩
    · rintro ⟨x', y', hR, hr⟩
      cases hR
      exact ⟨x, y, hxy, rfl, hx.2 hr⟩

/-- The recovery ids with an indicator name the points that have `r` for their abscissa. -/
theorem isNoncePoint_residue :
    IsNoncePoint (residue r) odd R ↔
      ∃ x y, ofGroup R = .affine x y ∧ x.val % order = r.val ∧ .ofPoint x y = RecoveryId.ofBits odd false := by
  cases R with
  | zero => exact iff_of_false nofun nofun
  | some x y hxy =>
    have hr := r.isLt
    have hx : x.val = (residue r).val ↔ x.val % order = r.val ∧ ¬order ≤ x.val := by
      have hmod := mod_order_eq_iff (Coord.ofResidue x) r
      rw [Scalar.residue, ZMod.val_cast_of_lt hr]
      change x.val % order = r.val ↔ x.val = if order ≤ x.val then _ else _ at hmod
      rw [hmod]
      split <;> omega
    have hid : RecoveryId.ofPoint (Coord.ofResidue x) (Coord.ofResidue y) = .ofBits odd false ↔
        (y.val % 2 = 1 ↔ odd = true) ∧ ¬order ≤ x.val := by
      rw [RecoveryId.ofPoint, RecoveryId.ofBits_inj, decide_eq_false_iff_not, Bool.eq_iff_iff, Coord.isOdd, beq_iff_eq]
      rfl
    constructor
    · rintro ⟨x', y', hxy', hR, hxr, hodd⟩
      cases hR
      obtain ⟨hmod, hlt⟩ := hx.1 hxr
      exact ⟨_, _, rfl, hmod, hid.2 ⟨hodd, hlt⟩⟩
    · rintro ⟨x', y', hR, hmod, hpoint⟩
      cases hR
      obtain ⟨hodd, hlt⟩ := hid.1 hpoint
      exact ⟨x, y, hxy, rfl, hx.2 ⟨hmod, hlt⟩, hodd⟩

theorem holds_residue :
    Holds Q (residue z) (residue r) (residue s) ↔
      ∃ x y, claimedPoint (ofGroup Q) z r s = .affine x y ∧ x.val % order = r.val := by
  rw [Holds, div_eq_mul_inv, div_eq_mul_inv, hasRemainder_residue, claimedPoint_ofGroup]

theorem recovers_residue (hr : r ≠ 0) (hs : s ≠ 0) :
    Recovers (residue z) (residue r) (residue s) odd Q ↔
      ∃ x y, claimedPoint (ofGroup Q) z r s = .affine x y ∧ x.val % order = r.val ∧
        .ofPoint x y = RecoveryId.ofBits odd false := by
  rw [recovers_iff (Scalar.residue_ne_zero.2 hr) (Scalar.residue_ne_zero.2 hs), div_eq_mul_inv, div_eq_mul_inv,
    isNoncePoint_residue, claimedPoint_ofGroup]

end Computed

end Wallet.Ecdsa
