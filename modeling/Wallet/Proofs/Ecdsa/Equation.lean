import Wallet.Ecdsa.Basic
import Wallet.Proofs.Curve.Addition
import Wallet.Proofs.Curve.Lift

/-! Verification and recovery by one equation. A key and a nonce point determine each other once `r` and `s`
are nonzero (`keyAt_eq_iff`), and a recovery id names at most one point that has a given `r`, by the parity of
its ordinate and by whether its abscissa reaches the order (`noncePoint?_eq_some`). So a key is recovered at
an id if and only if the nonce point that is claimed under it is the one which the id names
(`recover?_eq_some`), and it verifies if and only if that point has `r` at all (`verify_iff`). -/

namespace Wallet.Ecdsa

open Curve
open Curve.Point (ofGroup base)
open Curve.Scalar (residue)

variable {z r s : Scalar} {key R : Point} {id : RecoveryId}

/-! In the group -/

theorem claimedPoint_ofGroup (Q : weierstrass.Point) (z r s : Scalar) :
    claimedPoint (ofGroup Q) z r s =
      ofGroup ((residue z * (residue s)⁻¹) • base + (residue r * (residue s)⁻¹) • Q) := by
  rw [claimedPoint, ← Point.ofGroup_base, Point.mul_ofGroup_smul, Point.mul_ofGroup_smul, Point.add_ofGroup,
    Scalar.residue_mul, Scalar.residue_mul, Scalar.residue_inverse]

theorem keyAt_ofGroup (R : weierstrass.Point) (z r s : Scalar) :
    keyAt z r s (ofGroup R) =
      ofGroup ((-((residue r)⁻¹ * residue z)) • base + ((residue r)⁻¹ * residue s) • R) := by
  rw [keyAt, ← Point.ofGroup_base, Point.mul_ofGroup_smul, Point.mul_ofGroup_smul, Point.add_ofGroup,
    Scalar.residue_neg, Scalar.residue_mul, Scalar.residue_mul, Scalar.residue_inverse]

/-- The two ways to write the equation of a signature. -/
theorem solved_iff {r s : ZMod order} (hr : r ≠ 0) (hs : s ≠ 0) (z : ZMod order) (B Q R : weierstrass.Point) :
    (-(r⁻¹ * z)) • B + (r⁻¹ * s) • R = Q ↔ (z * s⁻¹) • B + (r * s⁻¹) • Q = R := by
  constructor
  · rintro rfl
    have hB : z * s⁻¹ + r * s⁻¹ * -(r⁻¹ * z) = 0 := by field_simp; ring
    have hR : r * s⁻¹ * (r⁻¹ * s) = 1 := by field_simp
    rw [smul_add, smul_smul, smul_smul, ← add_assoc, ← add_smul, hB, hR, zero_smul, one_smul, zero_add]
  · rintro rfl
    have hB : -(r⁻¹ * z) + r⁻¹ * s * (z * s⁻¹) = 0 := by field_simp; ring
    have hQ : r⁻¹ * s * (r * s⁻¹) = 1 := by field_simp
    rw [smul_add, smul_smul, smul_smul, ← add_assoc, ← add_smul, hB, hQ, zero_smul, one_smul, zero_add]

theorem keyAt_eq_iff (hkey : key.OnCurve) (hR : R.OnCurve) (hr : r ≠ 0) (hs : s ≠ 0) :
    keyAt z r s R = key ↔ claimedPoint key z r s = R := by
  obtain ⟨Q, rfl⟩ := Point.exists_ofGroup hkey
  obtain ⟨R, rfl⟩ := Point.exists_ofGroup hR
  rw [keyAt_ofGroup, claimedPoint_ofGroup, Point.ofGroup_injective.eq_iff, Point.ofGroup_injective.eq_iff]
  exact solved_iff (Scalar.residue_ne_zero.2 hr) (Scalar.residue_ne_zero.2 hs) _ _ _ _

theorem claimedPoint_onCurve (hkey : key.OnCurve) (z r s : Scalar) : (claimedPoint key z r s).OnCurve := by
  obtain ⟨Q, rfl⟩ := Point.exists_ofGroup hkey
  rw [claimedPoint_ofGroup]
  exact Point.ofGroup_onCurve _

theorem keyAt_onCurve (hR : R.OnCurve) (z r s : Scalar) : (keyAt z r s R).OnCurve := by
  obtain ⟨R, rfl⟩ := Point.exists_ofGroup hR
  rw [keyAt_ofGroup]
  exact Point.ofGroup_onCurve _

/-! The points that a recovery id names -/

/-- The recovery id of two bits. -/
def RecoveryId.ofBits (odd reduced : Bool) : RecoveryId :=
  ⟨(if odd then 1 else 0) + (if reduced then 2 else 0), by cases odd <;> cases reduced <;> decide⟩

theorem RecoveryId.ofBits_eq_iff (odd reduced : Bool) :
    ofBits odd reduced = id ↔ odd = id.isOdd ∧ reduced = id.isReduced := by
  revert odd reduced id
  decide

/-- The recovery id of an affine point. -/
def RecoveryId.ofPoint (x y : Coord) : RecoveryId := ofBits y.isOdd (decide (order ≤ x.val))

/-- An abscissa has a given `r` in one of two ways. -/
theorem mod_order_eq_iff (x : Coord) (r : Scalar) :
    x.val % order = r.val ↔ x.val = if order ≤ x.val then r.val + order else r.val := by
  have hx : x.val < 2 * order := x.isLt.trans (by decide)
  have hr := r.isLt
  split
  · rename_i hle
    rw [Nat.mod_eq_sub_mod hle, Nat.mod_eq_of_lt (by omega)]
    omega
  · rename_i hlt
    rw [Nat.mod_eq_of_lt (Nat.lt_of_not_le hlt)]

theorem noncePoint?_eq_some :
    noncePoint? r id = some R ↔
      ∃ x y, R = .affine x y ∧ R.OnCurve ∧ x.val % order = r.val ∧ .ofPoint x y = id := by
  -- the remainder and the second bit together say which abscissa it is
  have hx (x : Coord) : x.val % order = r.val ∧ decide (order ≤ x.val) = id.isReduced ↔
      x.val = if id.isReduced then r.val + order else r.val := by
    have hr := r.isLt
    rw [mod_order_eq_iff]
    cases id.isReduced <;> simp only [decide_eq_false_iff_not, decide_eq_true_eq] <;> split <;> simp <;> omega
  unfold noncePoint? RecoveryId.ofPoint
  simp only [RecoveryId.ofBits_eq_iff]
  generalize (if id.isReduced then r.val + order else r.val) = n at hx ⊢
  by_cases hlt : n < prime
  · rw [dif_pos hlt]
    rw [Point.lift?_eq_some]
    constructor
    · rintro ⟨y, rfl, hcurve, hodd⟩
      obtain ⟨hr, hreduced⟩ := (hx ⟨_, hlt⟩).2 rfl
      exact ⟨_, y, rfl, hcurve, hr, hodd, hreduced⟩
    · rintro ⟨x, y, rfl, hcurve, hr, hodd, hreduced⟩
      obtain rfl : x = ⟨_, hlt⟩ := Fin.ext ((hx x).1 ⟨hr, hreduced⟩)
      exact ⟨y, rfl, hcurve, hodd⟩
  · rw [dif_neg hlt]
    refine iff_of_false nofun ?_
    rintro ⟨x, y, rfl, -, hr, -, hreduced⟩
    exact hlt ((hx x).1 ⟨hr, hreduced⟩ ▸ x.isLt)

/-! Recovery and verification -/

theorem accepts_iff :
    accepts key z r s = true ↔ ∃ x y, claimedPoint key z r s = .affine x y ∧ x.val % order = r.val := by
  unfold accepts
  cases claimedPoint key z r s with
  | infinity => exact iff_of_false nofun fun ⟨_, _, h, _⟩ => nomatch h
  | affine x y =>
    rw [beq_iff_eq, Fin.ext_iff]
    constructor
    · exact fun h => ⟨x, y, rfl, h⟩
    · rintro ⟨x, y, h, hr⟩
      cases h
      exact hr

theorem verify_iff :
    verify key z r s = true ↔
      isLow s = true ∧ ∃ x y, claimedPoint key z r s = .affine x y ∧ x.val % order = r.val := by
  rw [verify, Bool.and_eq_true, accepts_iff]

/-- What recovery computes, as a relation. -/
theorem recover?_iff :
    recover? z r s id = some key ↔
      ∃ R, noncePoint? r id = some R ∧ keyAt z r s R = key ∧ key ≠ .infinity ∧ verify key z r s = true := by
  simp only [recover?, Option.bind_eq_bind, Option.bind_eq_some_iff, Option.ite_none_right_eq_some,
    Option.some.injEq]
  refine exists_congr fun R => and_congr_right fun _ => ⟨?_, ?_⟩
  · rintro ⟨hfound, rfl⟩
    exact ⟨rfl, hfound⟩
  · rintro ⟨rfl, hfound⟩
    exact ⟨hfound, rfl⟩

/-- A key that is recovered is a point other than infinity under which the signature verifies. -/
theorem sound_of_recover? (h : recover? z r s id = some key) : key ≠ .infinity ∧ verify key z r s = true := by
  obtain ⟨-, -, -, hsound⟩ := recover?_iff.1 h
  exact hsound

theorem recover?_onCurve (h : recover? z r s id = some key) : key.OnCurve := by
  obtain ⟨R, hR, rfl, -⟩ := recover?_iff.1 h
  obtain ⟨x, y, -, hcurve, -⟩ := noncePoint?_eq_some.1 hR
  exact keyAt_onCurve hcurve z r s

theorem recover?_of_high (h : isLow s = false) : recover? z r s id = none := by
  rw [Option.eq_none_iff_forall_ne_some]
  intro key hkey
  have hverify := (sound_of_recover? hkey).2
  rw [verify, h, Bool.false_and] at hverify
  exact Bool.false_ne_true hverify

/-- A key is recovered at the id of the nonce point that is claimed under it, and at no other. -/
theorem recover?_eq_some (hkey : key.OnCurve) (hne : key ≠ .infinity) (hr : r ≠ 0) (hs : s ≠ 0) :
    recover? z r s id = some key ↔
      isLow s = true ∧ ∃ x y, claimedPoint key z r s = .affine x y ∧ x.val % order = r.val ∧ .ofPoint x y = id := by
  rw [recover?_iff]
  constructor
  · rintro ⟨R, hR, hkeyAt, -, hverify⟩
    obtain ⟨x, y, rfl, hcurve, hx, hid⟩ := noncePoint?_eq_some.1 hR
    exact ⟨(verify_iff.1 hverify).1, x, y, (keyAt_eq_iff hkey hcurve hr hs).1 hkeyAt, hx, hid⟩
  · rintro ⟨hlow, x, y, hclaimed, hx, hid⟩
    have hcurve : (Point.affine x y).OnCurve := hclaimed ▸ claimedPoint_onCurve hkey z r s
    exact ⟨_, noncePoint?_eq_some.2 ⟨x, y, rfl, hcurve, hx, hid⟩, (keyAt_eq_iff hkey hcurve hr hs).2 hclaimed,
      hne, verify_iff.2 ⟨hlow, x, y, hclaimed, hx⟩⟩

end Wallet.Ecdsa
