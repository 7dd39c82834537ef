import Mathlib.Tactic.Tauto
import Wallet.Signature.Basic

/-! The ranges that a signature keeps to, and when three numbers make one. Numbers in range are nonzero
scalars. -/

namespace Wallet.Signature

theorem make_eq_ok {r s : Word} {v : UInt8} {σ : Signature} :
    make r s v = .ok σ ↔ σ = ⟨r, s, v⟩ ∧ InRange r ∧ InRange s ∧ (v = 0 ∨ v = 27 ∨ v = 28) := by
  have hv : ¬(v ≠ 0 ∧ v ≠ lowestV ∧ v ≠ lowestV + 1) ↔ v = 0 ∨ v = 27 ∨ v = 28 := by
    rw [show lowestV = 27 from rfl, show (27 : UInt8) + 1 = 28 from rfl]
    tauto
  unfold make
  by_cases hr : InRange r
  · by_cases hs : InRange s
    · by_cases hbad : v ≠ 0 ∧ v ≠ lowestV ∧ v ≠ lowestV + 1
      · rw [if_neg (not_not.2 hr), if_neg (not_not.2 hs), if_pos hbad, ← hv]
        simp [hbad]
      · rw [if_neg (not_not.2 hr), if_neg (not_not.2 hs), if_neg hbad, Except.ok.injEq, eq_comm]
        simp [hr, hs, hv.1 hbad]
    · simp [hr, hs]
  · simp [hr]

theorem valid_of_make {r s : Word} {v : UInt8} {σ : Signature} (h : make r s v = .ok σ) : σ.Valid := by
  obtain ⟨hσ, hvalid⟩ := make_eq_ok.1 h
  rw [hσ]
  exact hvalid

theorem make_unknown (r s : Word) : make r s 0 = .ok ⟨r, s, 0⟩ ∨ ∃ c, make r s 0 = .error (.outOfRange c) := by
  unfold make
  split
  · exact .inr ⟨_, rfl⟩
  · split
    · exact .inr ⟨_, rfl⟩
    · rw [if_neg (by decide)]
      exact .inl rfl

theorem scalars_cases (σ : Signature) :
    (InRange σ.r ∧ InRange σ.s ∧ ∃ rs, σ.scalars = .ok rs) ∨ σ.scalars = .error (.outOfRange .both) := by
  unfold scalars
  split
  · rename_i h
    exact .inl ⟨h.1, h.2, _, rfl⟩
  · exact .inr rfl

open Curve (Scalar)

section Scalars

variable {r s : Word}

theorem val_scalar (h : InRange r) : (Scalar.ofNat r.toNat).val = r.toNat := Nat.mod_eq_of_lt h.2

theorem scalar_ne_zero (h : InRange r) : Scalar.ofNat r.toNat ≠ 0 := by
  intro hzero
  have hval := val_scalar h
  rw [hzero] at hval
  exact h.1 (BitVec.eq_of_toNat_eq hval.symm)

theorem scalars_eq (hr : InRange r) (hs : InRange s) (v : UInt8) :
    scalars ⟨r, s, v⟩ = .ok (Scalar.ofNat r.toNat, Scalar.ofNat s.toNat) := if_pos ⟨hr, hs⟩

theorem isCanonical_eq_isLow (hs : InRange s) (v : UInt8) :
    isCanonical ⟨r, s, v⟩ = Ecdsa.isLow (Scalar.ofNat s.toNat) := by
  rw [isCanonical, Ecdsa.isLow, val_scalar hs]

end Scalars

section Words

variable {r s : Scalar}

theorem toNat_ofNat_val (r : Scalar) : (BitVec.ofNat 256 r.val).toNat = r.val := by
  have horder : Curve.order < 2 ^ 256 := by decide
  rw [BitVec.toNat_ofNat, Nat.mod_eq_of_lt (Nat.lt_trans r.isLt horder)]

theorem inRange_ofNat (h : r ≠ 0) : InRange (BitVec.ofNat 256 r.val) := by
  have hval := toNat_ofNat_val r
  constructor
  · intro hzero
    rw [hzero] at hval
    exact h (Fin.ext hval.symm)
  · rw [hval]
    exact r.isLt

theorem scalars_ofNat (hr : r ≠ 0) (hs : s ≠ 0) (v : UInt8) :
    scalars ⟨BitVec.ofNat 256 r.val, BitVec.ofNat 256 s.val, v⟩ = .ok (r, s) := by
  have hofNat (a : Scalar) : Scalar.ofNat a.val = a := Fin.ext (Nat.mod_eq_of_lt a.isLt)
  rw [scalars_eq (inRange_ofNat hr) (inRange_ofNat hs), toNat_ofNat_val, toNat_ofNat_val, hofNat, hofNat]

end Words

end Wallet.Signature
