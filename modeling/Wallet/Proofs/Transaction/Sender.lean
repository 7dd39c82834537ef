import Wallet.Proofs.Ecdsa.Nonce
import Wallet.Proofs.Key.Form
import Wallet.Proofs.Signature.Recovery
import Wallet.Proofs.Transaction.RoundTrip
import Wallet.Transaction.Sender

/-! A transaction that a key pair has signed is sent by that pair. The signature says nothing about
itself (`signingPayload_withSignature`), so what is recovered from a transaction is what was signed. -/

namespace Wallet

namespace Transaction

variable {tx : Transaction} {pair : KeyPair} {σ : Signature}

theorem signingPayload_withSignature (tx : Transaction) (signature : Option Signature) :
    signingPayload { tx with signature } = tx.signingPayload := by
  rw [signingPayload_eq, signingPayload_eq]

theorem recoverSender_of_signed (hσ : tx.signature = some σ) (h : (tx.sign pair).result = .ok σ) :
    tx.recoverSender = .ok (Address.ofPublicKey pair.publicKey) := by
  have hkey := recoverPublicKey_of_signDigest (sign_eq_ok.1 h)
  have haddress : Address.ofPublicKey ⟨.uncompressed, pair.publicKey.point⟩ =
      Address.ofPublicKey pair.publicKey := Address.ofPublicKey_congr rfl _
  simp only [recoverSender, hσ, Outcome.bind_eq_ok, Outcome.mapError_eq_ok, Outcome.pure_eq_ok]
  exact ⟨_, hkey, haddress⟩

theorem verify_of_recoverSender {a : Address} (hσ : tx.signature = some σ) (hcanonical : σ.isCanonical = true)
    (h : tx.recoverSender = .ok a) (expected : Address) :
    tx.verify expected = if expected = a then .ok () else .error (.senderMismatch expected a) := by
  simp only [verify, hσ, hcanonical, Bool.not_true, Bool.false_eq_true, if_false, h]
  by_cases ha : expected = a
  · rw [if_pos ha]
    simp [ha, bind, Except.bind, pure, Except.pure]
  · rw [if_neg ha]
    simp [Ne.symm ha, bind, Except.bind, throw, throwThe, MonadExceptOf.throw]

/-- Signing again gives the same signature, whatever is stored and however the public key is written. -/
theorem sign_again {other : KeyPair} (hpair : other.privateKey = pair.privateKey)
    (h : (tx.sign pair).result = .ok σ) (signature : Option Signature) :
    (Transaction.sign { tx with signature } other).result = .ok σ := by
  have hcongr (digest : Digest) : (Signer.signDigest { pair := other } digest).result =
      (Signer.signDigest { pair } digest).result := Signer.result_signDigest_congr hpair
  rw [sign_eq_ok] at h ⊢
  rw [signingPayload_withSignature, hcongr, h]

/-- What a key pair signs keeps the fields of the draft and is canonical with a known `v`. It is read
back from its bytes; its sender is the pair, and nobody else; and the pair signs it the same way again. -/
theorem sent_by_signer (d : Draft) (recipient : Address) (pair : KeyPair) (s : Signed)
    (h : ((d.address recipient).sign pair).result = .ok s) :
    let tx := s.build
    let sender := Address.ofPublicKey pair.publicKey
    ∃ σ : Signature,
      tx = { nonce := d.nonce, gasPrice := d.gasPrice, gasLimit := d.gasLimit, recipient, value := d.value,
             data := d.data, chainId := d.chainId, signature := some σ } ∧
      σ.s.toNat ≤ Curve.order / 2 ∧ (σ.v = 27 ∨ σ.v = 28) ∧
      (tx.encoded.length < UInt64.size →
        (decode tx.encoded).result = .ok tx ∧ (Signed.decode tx.encoded).result = .ok s) ∧
      tx.recoverSender = .ok sender ∧
      (∀ expected, tx.verify expected =
        if expected = sender then .ok () else .error (.senderMismatch expected sender)) ∧
      ∀ other : KeyPair, other.privateKey = pair.privateKey → (tx.sign other).result = .ok σ := by
  intro tx sender
  obtain ⟨σ, hσ, rfl⟩ := Addressed.sign_eq_ok.1 h
  obtain ⟨hr, hs, hv, hcanonical, -⟩ := Signer.signDigest_eq_ok (sign_eq_ok.1 hσ)
  have hsigned : ∀ other : KeyPair, other.privateKey = pair.privateKey → (tx.sign other).result = .ok σ :=
    fun other hpair => sign_again hpair hσ (some σ)
  have hsender : tx.recoverSender = .ok sender := recoverSender_of_signed rfl (hsigned pair rfl)
  have hsound : tx.Sound := (Made.signed d recipient pair _ h).sound
  refine ⟨σ, rfl, ?_, hv, fun hsize => ?_, hsender, verify_of_recoverSender rfl hcanonical hsender, hsigned⟩
  · rw [← Curve.halfOrder_eq]
    exact Signature.isCanonical_iff.1 hcanonical
  · have hread := decode_encoded_of_sound hsound hsize
    exact ⟨hread, Signed.decode_eq_ok.2 ⟨hread, rfl⟩⟩

section Unit

/-- The pair of the private key 1, whose point is the generator. -/
def unitPair : KeyPair := .ofPrivate ⟨1, by decide⟩

def unitDraft : Draft :=
  { nonce := 1, gasPrice := 0, gasLimit := 0, value := 0, data := [], chainId := some 1 }

def unitDigest : Digest :=
  #v[0x02, 0x81, 0x18, 0x8b, 0x23, 0xd7, 0x17, 0xd0, 0x52, 0x37, 0x48, 0xf7, 0x89, 0x23, 0xf3, 0x9b,
     0x42, 0x2f, 0x66, 0xdb, 0x70, 0x8f, 0xef, 0x56, 0xfb, 0xc8, 0x07, 0x8d, 0x69, 0xbe, 0x4a, 0x0f]

def unitSignature : Signature :=
  ⟨0xb98e5741b492c762c2ffdf8f75645d531293110be8fdcd5b6155fabbd685e5bf,
   0x3ecae0ef49f363830632f19850a66ce31541947059b81d157aa8dd265c36f7fe, 27⟩

theorem digest_unitDraft :
    Keccak.digest256 (unitDraft.address default).transaction.signingPayload = unitDigest := by
  have hpayload : (unitDraft.address default).transaction.signingPayload =
      [0xdd, 0x01, 0x80, 0x80, 0x94] ++ List.replicate 20 0 ++ [0x80, 0x80, 0x01, 0x80, 0x80] := by decide
  rw [hpayload]
  decide +kernel

theorem draw_unit :
    Ecdsa.sign 1 unitDigest =
      some (Curve.Scalar.ofNat unitSignature.r.toNat, Curve.Scalar.ofNat unitSignature.s.toNat) := by
  have hfirst : Ecdsa.NonceSource.IsFirst (.seed (1 : Curve.Scalar).toBytes unitDigest.toList) 0
      0xb59353725a70c7d10e826ad61816bf9a8e74987c218954c23468a5ac090444e0 :=
    .zero (by decide +kernel) (by decide)
  rw [Ecdsa.sign, Ecdsa.nonce?, Ecdsa.NonceSource.search_eq_some_iff.2 ⟨0, by decide, hfirst⟩]
  decide +kernel

theorem recover_unit :
    Ecdsa.recover? (Ecdsa.challenge unitDigest) (Curve.Scalar.ofNat unitSignature.r.toNat)
      (Curve.Scalar.ofNat unitSignature.s.toNat) 0 = some unitPair.publicKey.point := by
  decide +kernel

def unitSigned : Signed :=
  ⟨{ (unitDraft.address default).transaction with signature := some unitSignature }⟩

theorem signDigest_unit : (Signer.signDigest { pair := unitPair } unitDigest).result = .ok unitSignature := by
  have hraw : Signature.ofScalars (Curve.Scalar.ofNat unitSignature.r.toNat)
      (Curve.Scalar.ofNat unitSignature.s.toNat) 0 = .ok { unitSignature with v := 0 } := by decide +kernel
  have hlow : Signature.toCanonical { unitSignature with v := 0 } = { unitSignature with v := 0 } := by
    decide +kernel
  have hscalars : Signature.scalars { unitSignature with v := 0 } =
      .ok (Curve.Scalar.ofNat unitSignature.r.toNat, Curve.Scalar.ofNat unitSignature.s.toNat) := by
    decide +kernel
  have hid : Signer.recoveryId? { pair := unitPair } unitDigest (Curve.Scalar.ofNat unitSignature.r.toNat)
      (Curve.Scalar.ofNat unitSignature.s.toNat) = some 0 := by
    unfold Signer.recoveryId? Ecdsa.RecoveryId.all
    rw [List.find?_cons_of_pos]
    exact beq_iff_eq.2 recover_unit
  have hkey : unitPair.privateKey.scalar = 1 := rfl
  rw [Signer.signDigest_eq, hkey, draw_unit]
  simp only [Signer.complete, Outcome.result_bind_eq_ok, Reporting.result_silent, Signer.result_stamp]
  refine ⟨_, hraw, ?_⟩
  rw [hlow]
  refine ⟨_, hscalars, ?_⟩
  rw [hid]
  decide +kernel

theorem unit_sent_by_signer :
    ((unitDraft.address default).sign unitPair).result = .ok unitSigned ∧
      (decode unitSigned.build.encoded).result = .ok unitSigned.build ∧
      unitSigned.build.recoverSender = .ok (Address.ofPublicKey unitPair.publicKey) := by
  have h : ((unitDraft.address default).sign unitPair).result = .ok unitSigned := by
    refine Addressed.sign_eq_ok.2 ⟨unitSignature, sign_eq_ok.2 ?_, rfl⟩
    rw [digest_unitDraft]
    exact signDigest_unit
  have hsize : unitSigned.build.encoded.length < UInt64.size := by decide
  obtain ⟨-, -, -, -, hwire, hsender, -⟩ := sent_by_signer unitDraft default unitPair unitSigned h
  exact ⟨h, (hwire hsize).1, hsender⟩

end Unit

end Transaction
end Wallet
