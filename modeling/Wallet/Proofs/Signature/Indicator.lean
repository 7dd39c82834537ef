import Wallet.Proofs.Ecdsa.Equation
import Wallet.Proofs.Ecdsa.Nonce
import Wallet.Proofs.Key
import Wallet.Proofs.Signature.Signing

/-! A signer always finds the indicator of what it has signed. The nonce point satisfies the equation under
the signer's key (`claimedPoint_of_equation`), also after `s` was replaced by its opposite, which takes the
opposite nonce; so the key is recovered at the id of that point and at no other. Signing fails only if no
pair was drawn (`Ecdsa.sign_eq_none_iff`), or if the abscissa of the nonce point reaches the order: an indicator
for such a point does not exist. Main statement: `signDigest_outcome`. -/

namespace Wallet

open Curve

namespace Ecdsa

variable {z r s secret nonce : Scalar}

/-- Of `s` and its opposite exactly one is low. -/
theorem isLow_neg (h : s ≠ 0) : isLow (-s) = !isLow s := by
  have hlt := s.isLt
  have hodd : order = 2 * halfOrder + 1 := by decide
  have hval : (-s).val = order - s.val := by
    have hpos : 0 < s.val := Nat.pos_of_ne_zero (Fin.val_ne_zero_iff.2 h)
    rw [Fin.val_neg', Nat.mod_eq_of_lt (by omega)]
  rw [isLow, isLow, hval, ← decide_not, decide_eq_decide]
  omega

/-- The one that is taken, at the nonce or its opposite, is low. -/
theorem isLow_lower (h : s ≠ 0) : isLow (lower s) = true := by
  unfold lower
  split
  · assumption
  · rename_i hhigh
    rw [isLow_neg h, Bool.eq_false_of_not_eq_true hhigh, Bool.not_false]

theorem lower_ne_zero (h : s ≠ 0) : lower s ≠ 0 := by
  unfold lower
  split
  · exact h
  · rwa [← Scalar.residue_ne_zero, Scalar.residue_neg, neg_ne_zero, Scalar.residue_ne_zero]

theorem mul_lower (h : nonce * s = z) : ∃ nonce', (nonce' = nonce ∨ nonce' = -nonce) ∧ nonce' * lower s = z := by
  unfold lower
  split
  · exact ⟨nonce, .inl rfl, h⟩
  · refine ⟨-nonce, .inr rfl, ?_⟩
    rw [neg_mul_neg, h]

/-- Opposite multiples have the same abscissa. -/
theorem abscissa_mul_neg (nonce : Scalar) :
    abscissa (Point.mul (-nonce) .generator) = abscissa (Point.mul nonce .generator) := by
  have hneg : Point.mul (-nonce) .generator = (Point.mul nonce .generator).neg := by
    rw [← Point.ofGroup_base, Point.mul_ofGroup_smul, Point.mul_ofGroup_smul, Point.neg_ofGroup,
      Scalar.residue_neg, neg_smul]
  rw [hneg]
  cases Point.mul nonce .generator <;> rfl

/-- A pair that is drawn solves the equation at the nonce or its opposite, and is low. -/
theorem signWith_eq_some {drawn : Scalar} (h : signWith secret z drawn = some (r, s)) :
    ∃ nonce x y, (nonce = drawn ∨ nonce = -drawn) ∧ nonce * s = z + r * secret ∧
      Point.mul nonce .generator = .affine x y ∧ x.val % order = r.val ∧
      r ≠ 0 ∧ s ≠ 0 ∧ isLow s = true := by
  simp only [signWith, Option.ite_none_left_eq_some, not_or, Option.some.injEq, Prod.mk.injEq] at h
  obtain ⟨⟨hr, hs⟩, habscissa, hlower⟩ := h
  generalize hs₀ : drawn.inverse * (z + abscissa (Point.mul drawn .generator) * secret) = s₀ at hs hlower
  rw [habscissa] at hr hs₀
  subst hlower
  -- the inverse of zero is zero, so a zero nonce would have given a zero `s`
  have hdrawn : Scalar.residue drawn ≠ 0 := by
    intro hzero
    apply hs
    rw [← hs₀, ← Scalar.residue_eq_zero, Scalar.residue_mul, Scalar.residue_inverse, hzero, inv_zero, zero_mul]
  have heq : drawn * s₀ = z + r * secret := by
    rw [← hs₀, ← Scalar.residue_inj]
    simp only [Scalar.residue_mul, Scalar.residue_inverse]
    rw [mul_inv_cancel_left₀ hdrawn]
  obtain ⟨nonce, hnonce, heq⟩ := mul_lower heq
  have hpoint : abscissa (Point.mul nonce .generator) = r := by
    rcases hnonce with rfl | rfl
    · exact habscissa
    · rw [abscissa_mul_neg, habscissa]
  cases hmul : Point.mul nonce .generator with
  | infinity =>
    rw [hmul] at hpoint
    exact absurd hpoint.symm hr
  | affine x y =>
    rw [hmul] at hpoint
    exact ⟨nonce, x, y, hnonce, heq, hmul, congrArg Fin.val hpoint, hr, lower_ne_zero hs, isLow_lower hs⟩

theorem sign_eq_some {digest : Digest} {tries : Nat} (h : sign secret digest tries = some (r, s)) :
    ∃ drawn, nonce? secret digest tries = some drawn ∧ signWith secret (challenge digest) drawn = some (r, s) := by
  unfold sign at h
  generalize nonce? secret digest tries = found at h ⊢
  exact Option.bind_eq_some_iff.1 h

/-- Under the key of the secret, the claimed point of a solution is the point of its nonce. -/
theorem claimedPoint_of_equation (hs : s ≠ 0) (h : nonce * s = z + r * secret) :
    claimedPoint (Point.mul secret .generator) z r s = Point.mul nonce .generator := by
  have hs : Scalar.residue s ≠ 0 := Scalar.residue_ne_zero.2 hs
  have h := congrArg Scalar.residue h
  simp only [Scalar.residue_mul, Scalar.residue_add] at h
  have hnonce : Scalar.residue z * (Scalar.residue s)⁻¹ +
      Scalar.residue r * (Scalar.residue s)⁻¹ * Scalar.residue secret = Scalar.residue nonce := by
    rw [← mul_inv_cancel_right₀ hs (Scalar.residue nonce), h]
    ring
  rw [← Point.ofGroup_base, Point.mul_ofGroup_smul, claimedPoint_ofGroup, Point.mul_ofGroup_smul, smul_smul,
    ← add_smul, hnonce]

end Ecdsa

namespace Signature

variable {r s : Scalar}

theorem toCanonical_ofNat (h : Ecdsa.isLow s = true) (w : Word) (v : UInt8) :
    toCanonical ⟨w, BitVec.ofNat 256 s.val, v⟩ = ⟨w, BitVec.ofNat 256 s.val, v⟩ := by
  rw [Ecdsa.isLow, decide_eq_true_eq] at h
  rw [toCanonical, if_pos]
  exact isCanonical_iff.2 ((toNat_ofNat_val s).trans_le h)

/-- The indicators of the ids, of which two are refused. -/
theorem make_of_bits {r s : Word} (hr : InRange r) (hs : InRange s) (odd reduced : Bool) :
    make r s ((Ecdsa.RecoveryId.ofBits odd reduced).toByte + lowestV) =
      if reduced then .error (.invalidV (if odd then 30 else 29)) else .ok ⟨r, s, if odd then 28 else 27⟩ := by
  rw [make, if_neg (not_not.2 hr), if_neg (not_not.2 hs)]
  cases reduced <;> cases odd <;> rfl

end Signature

namespace Signer

variable {signer : Signer} {digest : Digest} {r s : Scalar} {id : Ecdsa.RecoveryId}

/-- The search finds the only id that there is. -/
theorem recoveryId?_eq_some
    (h : ∀ i, Ecdsa.recover? (Ecdsa.challenge digest) r s i = some signer.pair.publicKey.point ↔ id = i) :
    signer.recoveryId? digest r s = some id := by
  have hall : ∀ i : Ecdsa.RecoveryId, i ∈ Ecdsa.RecoveryId.all := by decide
  unfold recoveryId?
  simp only [beq_eq_decide, h]
  cases hfind : Ecdsa.RecoveryId.all.find? fun i => decide (id = i) with
  | none => simpa using List.find?_eq_none.1 hfind id (hall id)
  | some i =>
    have hfound := List.find?_some hfind
    rw [of_decide_eq_true hfound]

/-- What signing makes of a low pair at the recovery id that is found for it. -/
theorem result_complete (hr : r ≠ 0) (hs : s ≠ 0) (hlow : Ecdsa.isLow s = true) {odd reduced : Bool}
    (hid : signer.recoveryId? digest r s = some (.ofBits odd reduced)) :
    (complete signer digest (some (r, s))).result =
      if reduced then .error (.invalidV (if odd then 30 else 29))
      else .ok ⟨BitVec.ofNat 256 r.val, BitVec.ofNat 256 s.val, if odd then 28 else 27⟩ := by
  have hraw : Signature.ofScalars r s 0 = .ok ⟨BitVec.ofNat 256 r.val, BitVec.ofNat 256 s.val, 0⟩ :=
    Signature.make_eq_ok.2 ⟨rfl, Signature.inRange_ofNat hr, Signature.inRange_ofNat hs, .inl rfl⟩
  simp only [complete, Reporting.result_bind, Reporting.result_silent, hraw, Outcome.ok_bind,
    Signature.toCanonical_ofNat hlow, Signature.scalars_ofNat hr hs, hid, result_stamp]
  exact Signature.make_of_bits (Signature.inRange_ofNat hr) (Signature.inRange_ofNat hs) odd reduced

theorem recover?_publicKey (hr : r ≠ 0) (hs : s ≠ 0) (hlow : Ecdsa.isLow s = true) {nonce : Scalar}
    (heq : nonce * s = Ecdsa.challenge digest + r * signer.pair.privateKey.scalar) {x y : Coord}
    (hpoint : Point.mul nonce .generator = .affine x y) (hx : x.val % order = r.val) (i : Ecdsa.RecoveryId) :
    Ecdsa.recover? (Ecdsa.challenge digest) r s i = some signer.pair.publicKey.point ↔
      Ecdsa.RecoveryId.ofPoint x y = i := by
  have hclaimed : Ecdsa.claimedPoint signer.pair.publicKey.point (Ecdsa.challenge digest) r s = .affine x y := by
    rw [signer.pair.point_eq, PrivateKey.publicPoint, Ecdsa.claimedPoint_of_equation hs heq, hpoint]
  rw [Ecdsa.recover?_eq_some signer.pair.publicKey_onCurve signer.pair.publicKey_ne_infinity hr hs, hclaimed]
  constructor
  · rintro ⟨-, x', y', hxy, -, hid⟩
    cases hxy
    exact hid
  · exact fun hid => ⟨hlow, x, y, rfl, hx, hid⟩

/-- Signing fails for want of a pair, or gives what the nonce point of the pair says: the recovery id is the
parity of its ordinate, and 2 more if its abscissa reaches the order, where no indicator is left for it.
The key is recovered at that id and at no other, so it is always found. This holds for every number of candidates
that are tried for the nonce. There is no pair if all of them are refused, or if a scalar of the pair is zero; once
one is taken, trying more makes no difference. -/
theorem signDigest_outcome (signer : Signer) (digest : Digest) (tries : Nat) :
    let secret := signer.pair.privateKey.scalar
    let z := Ecdsa.challenge digest
    (signer.signDigest digest tries).result ≠ .error .recoveryIdNotFound ∧
    ((Ecdsa.sign secret digest tries = none ∧ (signer.signDigest digest tries).result = .error .signingFailed ∧
        ((∀ i < tries, ¬Ecdsa.NonceSource.IsTaken (Ecdsa.candidate secret digest i)) ∨
          ∃ nonce, Ecdsa.nonce? secret digest tries = some nonce ∧
            (Ecdsa.abscissa (Point.mul nonce .generator) = 0 ∨
              nonce.inverse * (z + Ecdsa.abscissa (Point.mul nonce .generator) * secret) = 0))) ∨
      ∃ (r s nonce : Scalar) (x y : Coord) (id : Ecdsa.RecoveryId),
        Ecdsa.sign secret digest tries = some (r, s) ∧
        (∃ drawn, Ecdsa.nonce? secret digest tries = some drawn ∧ (nonce = drawn ∨ nonce = -drawn)) ∧
        s.val ≤ order / 2 ∧ nonce * s = z + r * secret ∧
        Point.mul nonce .generator = .affine x y ∧ x.val % order = r.val ∧
        id.val = (if y.isOdd then 1 else 0) + (if order ≤ x.val then 2 else 0) ∧
        (∀ i, Ecdsa.recover? z r s i = some signer.pair.publicKey.point ↔ id = i) ∧
        signer.recoveryId? digest r s = some id ∧
        (signer.signDigest digest tries).result =
          if order ≤ x.val then .error (.invalidV (if y.isOdd then 30 else 29))
          else .ok ⟨BitVec.ofNat 256 r.val, BitVec.ofNat 256 s.val, if y.isOdd then 28 else 27⟩) ∧
    ∀ i < tries, Ecdsa.NonceSource.IsTaken (Ecdsa.candidate secret digest i) →
      ∀ more ≥ tries, signer.signDigest digest more = signer.signDigest digest tries := by
  intro secret z
  refine (and_iff_right_of_imp ?_).2 ⟨?_, fun i hi htaken more hmore => ?_⟩
  · rintro ⟨⟨-, hresult, -⟩ | ⟨_, _, _, _, _, _, -, -, -, -, -, -, -, -, -, hresult⟩, -⟩ <;> rw [hresult]
    · exact nofun
    · split <;> exact nofun
  · rw [signDigest_eq]
    rcases hsign : Ecdsa.sign secret digest tries with _ | ⟨r, s⟩
    · exact .inl ⟨rfl, rfl, Ecdsa.sign_eq_none_iff.1 hsign⟩
    · refine .inr ?_
      obtain ⟨drawn, hdrawn, hpair⟩ := Ecdsa.sign_eq_some hsign
      obtain ⟨nonce, x, y, hnonce, heq, hpoint, hx, hr, hs, hlow⟩ := Ecdsa.signWith_eq_some hpair
      have hrecover := recover?_publicKey hr hs hlow heq hpoint hx
      have hid := recoveryId?_eq_some hrecover
      refine ⟨r, s, nonce, x, y, .ofPoint x y, rfl, ⟨drawn, hdrawn, hnonce⟩, ?_, heq, hpoint, hx, ?_, hrecover,
        hid, ?_⟩
      · rw [← halfOrder_eq]
        exact of_decide_eq_true hlow
      · simp only [Ecdsa.RecoveryId.ofPoint, Ecdsa.RecoveryId.ofBits, decide_eq_true_eq]
      · simp only [result_complete hr hs hlow hid, decide_eq_true_eq]
  · rw [signDigest_eq, signDigest_eq, Ecdsa.sign_of_le htaken hi hmore]

end Signer
end Wallet
