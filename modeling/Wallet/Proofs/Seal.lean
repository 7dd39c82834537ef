import Wallet.Proofs.Key
import Wallet.Proofs.Outcome
import Wallet.Seal

/-! What is sealed to a key is opened with it. Either side derives the keys from its own private key and
the other's public key, and gets the same ones since multiples of the generator commute
(`deriveKeys_comm`). The opener cuts the seal at distances from its two ends (`cut`), which are those at
which it was put together (`cut_append`). Main statement: `opened_as_sealed`. -/

namespace Wallet

namespace Seal

/-! Keys -/

/-- Both sides compute the same abscissa. -/
theorem agreement_comm {a b : PrivateKey} {A B : PublicKey} (hA : A.point = a.publicPoint)
    (hB : B.point = b.publicPoint) : agreement a B = agreement b A := by
  unfold agreement
  rw [hA, hB, PrivateKey.publicPoint, PrivateKey.publicPoint,
    Curve.Point.mul_swap Curve.Point.generator_onCurve]

theorem deriveKeys_comm {a b : PrivateKey} {A B : PublicKey} (hA : A.point = a.publicPoint)
    (hB : B.point = b.publicPoint) : deriveKeys a B = deriveKeys b A := by
  unfold deriveKeys
  rw [agreement_comm hA hB]

theorem length_cipher (own : PrivateKey) (peer : PublicKey) : (deriveKeys own peer).cipher.length = 16 := by
  simp only [deriveKeys, List.length_take, Vector.length_toList]
  rfl

/-- Derived keys fit the cipher, whose stream takes off what it has put on. -/
theorem applyStream_twice (own : PrivateKey) (peer : PublicKey) {iv : Bytes} (hiv : iv.length = ivSize)
    (text : Bytes) :
    ∃ out, applyStream (deriveKeys own peer) iv text = .ok out ∧ out.length = text.length ∧
      applyStream (deriveKeys own peer) iv out = .ok text := by
  have h : (deriveKeys own peer).cipher.length = 16 ∧ iv.length = 16 := ⟨length_cipher own peer, hiv⟩
  refine ⟨Counter.apply ((deriveKeys own peer).cipher.toVector h.1) (iv.toVector h.2) text, ?_, ?_, ?_⟩
  · rw [applyStream, dif_pos h]
  · exact Counter.length_apply _ _ _
  · rw [applyStream, dif_pos h, Counter.apply_apply]

theorem length_tag (keys : Keys) (iv ciphertext : Bytes) : (tag keys iv ciphertext).length = tagSize :=
  Vector.length_toList

/-! The frame -/

/-- The parts of a seal. -/
structure Parts where
  embedded : Bytes
  iv : Bytes
  ciphertext : Bytes
  given : Bytes
  deriving DecidableEq, Repr

/-- The parts as the opener cuts them: the key and the counter from the front, the tag from the back. -/
def cut (blob : Bytes) : Parts :=
  let body := (blob.drop Curve.Form.uncompressed.size).drop ivSize
  { embedded := blob.take Curve.Form.uncompressed.size
    iv := (blob.drop Curve.Form.uncompressed.size).take ivSize
    ciphertext := body.take (body.length - tagSize)
    given := body.drop (body.length - tagSize) }

theorem cut_append {embedded iv given : Bytes} (hembedded : embedded.length = Curve.Form.uncompressed.size)
    (hiv : iv.length = ivSize) (ciphertext : Bytes) (hgiven : given.length = tagSize) :
    cut (embedded ++ iv ++ ciphertext ++ given) = ⟨embedded, iv, ciphertext, given⟩ := by
  have hbody : (ciphertext ++ given).length - tagSize = ciphertext.length := by
    rw [List.length_append, hgiven, Nat.add_sub_cancel]
  simp only [cut, List.append_assoc, List.take_left' hembedded, List.drop_left' hembedded,
    List.take_left' hiv, List.drop_left' hiv, hbody, List.take_left, List.drop_left]

theorem length_iv_cut {blob : Bytes} (h : overhead ≤ blob.length) : (cut blob).iv.length = ivSize := by
  simp only [cut, List.length_take, List.length_drop, overhead] at h ⊢
  omega

/-- Opening step by step, without the events. -/
theorem result_decrypt (recipient : PrivateKey) (blob : Bytes) :
    (decrypt recipient blob).result =
      if blob.length < overhead then .error (.tooShort blob.length overhead)
      else if (cut blob).embedded.head? ≠ some Curve.uncompressedTag then .error .invalidSender
      else match PublicKey.ofBytes (cut blob).embedded with
        | .error _ => .error .invalidSender
        | .ok sender =>
          if tag (deriveKeys recipient sender) (cut blob).iv (cut blob).ciphertext ≠ (cut blob).given then
            .error .tagMismatch
          else applyStream (deriveKeys recipient sender) (cut blob).iv (cut blob).ciphertext := by
  unfold decrypt cut
  dsimp only
  split
  · rw [Reporting.result_bind, Reporting.result_throw, Outcome.error_bind]
  · split
    · rw [Reporting.result_bind, Reporting.result_throw, Outcome.error_bind]
    · rw [Reporting.result_bind, Reporting.result_silent]
      cases PublicKey.ofBytes (List.take Curve.Form.uncompressed.size blob) with
      | error e => rfl
      | ok sender =>
        rw [Except.mapError, Outcome.ok_bind]
        dsimp only
        split
        · rw [Reporting.result_bind, Reporting.result_emit, Outcome.ok_bind, Reporting.result_bind,
            Reporting.result_throw, Outcome.error_bind]
        · exact Reporting.result_silent _

/-- Opening a frame around a point of the curve. -/
theorem result_decrypt_frame (recipient : PrivateKey) {embedded : PublicKey} (h : embedded.Valid) {iv given : Bytes}
    (hiv : iv.length = ivSize) (ciphertext : Bytes) (hgiven : given.length = tagSize) :
    (decrypt recipient (embedded.uncompressedBytes ++ iv ++ ciphertext ++ given)).result =
      if tag (deriveKeys recipient embedded) iv ciphertext ≠ given then .error .tagMismatch
      else applyStream (deriveKeys recipient embedded) iv ciphertext := by
  have hlength := PublicKey.length_uncompressedBytes h.ne_infinity
  have hhead := PublicKey.head?_uncompressedBytes h.ne_infinity
  rw [result_decrypt, cut_append hlength hiv ciphertext hgiven, if_neg, if_neg (not_not.2 hhead),
    PublicKey.ofBytes_uncompressedBytes h]
  · rfl
  · simp only [List.length_append, hlength, hiv, hgiven, overhead]
    omega

/-! Sealing and opening -/

theorem create_eq_ok (sender : PrivateKey) (recipient : PublicKey) {iv : Bytes} (hiv : iv.length = ivSize)
    (plaintext : Bytes) :
    ∃ ciphertext, ciphertext.length = plaintext.length ∧
      applyStream (deriveKeys sender recipient) iv ciphertext = .ok plaintext ∧
      create sender recipient iv plaintext =
        .ok (sender.publicPoint.encode .uncompressed ++ iv ++ ciphertext ++
          tag (deriveKeys sender recipient) iv ciphertext) := by
  obtain ⟨ciphertext, hput, hlength, htake⟩ := applyStream_twice sender recipient hiv plaintext
  refine ⟨ciphertext, hlength, htake, ?_⟩
  simp only [create, hput, Outcome.ok_bind]
  rfl

theorem create_ne_cipherSetup (sender : PrivateKey) (recipient : PublicKey) {iv : Bytes}
    (hiv : iv.length = ivSize) (plaintext : Bytes) :
    create sender recipient iv plaintext ≠ .error .cipherSetup := by
  obtain ⟨ciphertext, -, -, hcreate⟩ := create_eq_ok sender recipient hiv plaintext
  rw [hcreate]
  exact nofun

theorem decrypt_ne_cipherSetup (recipient : PrivateKey) (blob : Bytes) :
    (decrypt recipient blob).result ≠ .error .cipherSetup := by
  rw [result_decrypt]
  split
  · exact nofun
  · rename_i hlong
    split
    · exact nofun
    · split
      · exact nofun
      · rename_i sender _
        split
        · exact nofun
        · have hiv := length_iv_cut (Nat.le_of_not_lt hlong)
          obtain ⟨out, hout, -⟩ := applyStream_twice recipient sender hiv (cut blob).ciphertext
          rw [hout]
          exact nofun

/-- A blob is a seal of a text from one key to another: it has the text's length and 113 bytes more,
begins with the sender's public key and the counter, and the recipient opens it. -/
structure Carries (blob : Bytes) (sender recipient : PrivateKey) (iv plaintext : Bytes) : Prop where
  length_eq : blob.length = plaintext.length + 113
  embedded_eq : blob.take 65 = (KeyPair.ofPrivate sender).publicKey.uncompressedBytes
  iv_eq : (blob.drop 65).take 16 = iv
  opens : (decrypt recipient blob).result = .ok plaintext

theorem create_carries (sender : PrivateKey) (recipient : KeyPair) {iv : Bytes} (hiv : iv.length = ivSize)
    (plaintext : Bytes) :
    ∃ blob, create sender recipient.publicKey iv plaintext = .ok blob ∧
      Carries blob sender recipient.privateKey iv plaintext := by
  obtain ⟨ciphertext, hlength, htake, hcreate⟩ := create_eq_ok sender recipient.publicKey hiv plaintext
  have hne := sender.publicPoint_ne_infinity
  have hembedded := Curve.Point.length_encode hne .uncompressed
  have htag := length_tag (deriveKeys sender recipient.publicKey) iv ciphertext
  have hcut := cut_append hembedded hiv ciphertext htag
  -- the recipient reads the sender's point and derives the sender's keys
  have hkeys : deriveKeys recipient.privateKey ⟨.uncompressed, sender.publicPoint⟩ =
      deriveKeys sender recipient.publicKey := deriveKeys_comm recipient.point_eq rfl
  have hvalid : PublicKey.Valid ⟨.uncompressed, sender.publicPoint⟩ :=
    PublicKey.valid_of_onCurve sender.publicPoint_onCurve hne nofun
  have hopen := result_decrypt_frame recipient.privateKey hvalid hiv ciphertext htag
  rw [hkeys, if_neg (not_not.2 rfl)] at hopen
  refine ⟨_, hcreate, ?_, congrArg Parts.embedded hcut, congrArg Parts.iv hcut, hopen.trans htake⟩
  simp only [List.length_append, hembedded, hiv, htag, hlength, Curve.Form.size, ivSize, tagSize]
  omega

/-- A text sealed to a key in any of its forms, by a given sender or by one drawn for it, is opened with
the private key that belongs to it, whatever the tape holds. The cipher can always be set up. -/
theorem opened_as_sealed (sender : PrivateKey) (recipient : KeyPair) (plaintext : Bytes) (tape : Tape) :
    (∃ blob, encrypt sender recipient.publicKey plaintext tape = (.ok blob, tape.advance 16) ∧
      Carries blob sender recipient.privateKey (tape.take 16) plaintext) ∧
    (∃ blob, encryptEphemeral recipient.publicKey plaintext tape =
        (.ok blob, (tape.advance 16).drawKey.2) ∧
      Carries blob (tape.advance 16).drawKey.1 recipient.privateKey (tape.take 16) plaintext) ∧
    (∀ key : PublicKey, (encrypt sender key plaintext tape).1 ≠ .error .cipherSetup ∧
      (encryptEphemeral key plaintext tape).1 ≠ .error .cipherSetup) ∧
    ∀ (key : PrivateKey) (blob : Bytes), (decrypt key blob).result ≠ .error .cipherSetup := by
  have hiv : (tape.take ivSize).length = ivSize := tape.length_take ivSize
  refine ⟨?_, ?_, fun key => ⟨?_, ?_⟩, decrypt_ne_cipherSetup⟩
  · obtain ⟨blob, hblob, hcarries⟩ := create_carries sender recipient hiv plaintext
    exact ⟨blob, Prod.ext hblob rfl, hcarries⟩
  · obtain ⟨blob, hblob, hcarries⟩ := create_carries (tape.advance ivSize).drawKey.1 recipient hiv plaintext
    exact ⟨blob, Prod.ext hblob rfl, hcarries⟩
  · exact create_ne_cipherSetup sender key hiv plaintext
  · exact create_ne_cipherSetup (tape.advance ivSize).drawKey.1 key hiv plaintext

end Seal
end Wallet
