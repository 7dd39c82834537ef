import Wallet.Proofs.Seal

/-! What opening returns, blob by blob. A blob is too short for a seal, or begins with no point of the curve, or
is a frame: a point, a counter, a text and a tag (`short_or_pointless_or_frame`). Over a frame the tag decides
(`result_decrypt_of_frame`), and the texts that are opened are those of which the frame is the seal under the
keys that the recipient shares with the point. Each point of the curve is that of a private key, and with it the
frame is what a sender makes (`enclose_eq_create`). Main statement: `decrypt_outcome`. -/

namespace Wallet.Seal

open Curve (Coord Point)

variable {blob : Bytes} {recipient : PrivateKey} {x y : Coord} {iv ciphertext given plaintext : Bytes}

/-! Where a blob is cut -/

/-- The parts one after the other. -/
def Parts.join (parts : Parts) : Bytes := parts.embedded ++ parts.iv ++ parts.ciphertext ++ parts.given

theorem join_cut (blob : Bytes) : (cut blob).join = blob := by
  simp only [Parts.join, cut, List.append_assoc, List.take_append_drop]

theorem length_embedded_cut (h : overhead ≤ blob.length) :
    (cut blob).embedded.length = Curve.Form.uncompressed.size := by
  simp only [cut, List.length_take, overhead] at h ⊢
  omega

theorem length_given_cut (h : overhead ≤ blob.length) : (cut blob).given.length = tagSize := by
  simp only [cut, List.length_drop, overhead] at h ⊢
  omega

theorem length_ciphertext_cut (h : overhead ≤ blob.length) :
    (cut blob).ciphertext.length + overhead = blob.length := by
  simp only [cut, List.length_take, List.length_drop, overhead] at h ⊢
  omega

/-! Frames -/

/-- The seal of a text under given keys, behind the bytes of a point. -/
def enclose (embedded : Bytes) (keys : Keys) (iv plaintext : Bytes) : Except SealError Bytes := do
  let ciphertext ← applyStream keys iv plaintext
  return embedded ++ iv ++ ciphertext ++ tag keys iv ciphertext

/-- What a sender makes is such a seal, under the keys that it shares with the recipient. -/
theorem create_eq_enclose (sender : PrivateKey) (recipient : PublicKey) (iv plaintext : Bytes) :
    create sender recipient iv plaintext =
      enclose (sender.publicPoint.encode .uncompressed) (deriveKeys sender recipient) iv plaintext := rfl

theorem enclose_eq_ok {embedded : Bytes} {keys : Keys} :
    enclose embedded keys iv plaintext = .ok blob ↔
      ∃ ciphertext, applyStream keys iv plaintext = .ok ciphertext ∧
        embedded ++ iv ++ ciphertext ++ tag keys iv ciphertext = blob := by
  simp only [enclose, Outcome.bind_eq_ok, Outcome.pure_eq_ok]

/-- The bytes of a point that a blob begins with: a tag and two coordinates below the prime. -/
def embedding (x y : Coord) : Bytes := 0x04 :: (x.toBytes ++ y.toBytes)

/-- A blob that begins with a point of the curve, with a counter, a text and a tag behind it. -/
structure Frame (blob : Bytes) (x y : Coord) (iv ciphertext given : Bytes) : Prop where
  blob_eq : blob = embedding x y ++ iv ++ ciphertext ++ given
  onCurve : (Point.affine x y).OnCurve
  length_iv : iv.length = 16
  length_given : given.length = 32

theorem length_embedding (x y : Coord) : (embedding x y).length = Curve.Form.uncompressed.size :=
  Point.length_encode (p := .affine x y) nofun .uncompressed

theorem Frame.length_eq (h : Frame blob x y iv ciphertext given) : blob.length = ciphertext.length + 113 := by
  rw [h.blob_eq, List.length_append, List.length_append, List.length_append, length_embedding, h.length_iv,
    h.length_given, Curve.Form.size]
  omega

/-- What can be wrong with a blob before any key is derived. -/
theorem short_or_pointless_or_frame (blob : Bytes) :
    blob.length < 113 ∨
      (113 ≤ blob.length ∧ ¬∃ x y, (Point.affine x y).OnCurve ∧ blob.take 65 = embedding x y) ∨
      ∃ x y iv ciphertext given, Frame blob x y iv ciphertext given := by
  rcases Nat.lt_or_ge blob.length 113 with hshort | hlong
  · exact .inl hshort
  · by_cases hpoint : ∃ x y, (Point.affine x y).OnCurve ∧ blob.take 65 = embedding x y
    · obtain ⟨x, y, hcurve, hembedded⟩ := hpoint
      have hjoin := join_cut blob
      have hcut : (cut blob).embedded = embedding x y := hembedded
      rw [Parts.join, hcut] at hjoin
      exact .inr (.inr ⟨x, y, _, _, _, hjoin.symm, hcurve, length_iv_cut hlong, length_given_cut hlong⟩)
    · exact .inr (.inl ⟨hlong, hpoint⟩)

/-! What opening makes of each -/

/-- The keys that the recipient derives from a point. -/
def sharedKeys (recipient : PrivateKey) (x y : Coord) : Keys := deriveKeys recipient ⟨.uncompressed, .affine x y⟩

/-- The seal behind a point is the one that is made with the private key of the point. -/
theorem enclose_eq_create {sender : PrivateKey} (h : sender.publicPoint = .affine x y) (recipient : PrivateKey)
    (iv plaintext : Bytes) :
    enclose (embedding x y) (sharedKeys recipient x y) iv plaintext =
      create sender (KeyPair.ofPrivate recipient).publicKey iv plaintext := by
  have hkeys : sharedKeys recipient x y = deriveKeys sender (KeyPair.ofPrivate recipient).publicKey :=
    deriveKeys_comm (KeyPair.ofPrivate recipient).point_eq h.symm
  rw [create_eq_enclose, h, hkeys]
  rfl

/-- A blob that encloses a text behind some point is one that a sender makes of it. -/
theorem exists_enclose_iff_exists_create {recipient : PrivateKey} :
    (∃ x y iv, (Point.affine x y).OnCurve ∧ iv.length = 16 ∧
        enclose (embedding x y) (sharedKeys recipient x y) iv plaintext = .ok blob) ↔
      ∃ sender iv, iv.length = 16 ∧
        create sender (KeyPair.ofPrivate recipient).publicKey iv plaintext = .ok blob := by
  constructor
  · rintro ⟨x, y, iv, hcurve, hiv, hseal⟩
    obtain ⟨sender, hsender⟩ := PrivateKey.exists_publicPoint hcurve nofun
    exact ⟨sender, iv, hiv, (enclose_eq_create hsender recipient iv plaintext).symm.trans hseal⟩
  · rintro ⟨sender, iv, hiv, hcreate⟩
    have hcurve := sender.publicPoint_onCurve
    cases hpoint : sender.publicPoint with
    | infinity => exact absurd hpoint sender.publicPoint_ne_infinity
    | affine x y =>
      rw [hpoint] at hcurve
      exact ⟨x, y, iv, hcurve, hiv, (enclose_eq_create hpoint recipient iv plaintext).trans hcreate⟩

theorem length_of_applyStream {keys : Keys} {text out : Bytes} (h : applyStream keys iv text = .ok out) :
    out.length = text.length := by
  unfold applyStream at h
  split at h
  · cases h
    exact Counter.length_apply _ _ text
  · cases h

/-- The stream takes off what it puts on, whichever of two texts comes first. -/
theorem applyStream_eq_ok_comm {own : PrivateKey} {peer : PublicKey} (hiv : iv.length = 16) {text out : Bytes} :
    applyStream (deriveKeys own peer) iv text = .ok out ↔ applyStream (deriveKeys own peer) iv out = .ok text := by
  have hback {text out : Bytes} (h : applyStream (deriveKeys own peer) iv text = .ok out) :
      applyStream (deriveKeys own peer) iv out = .ok text := by
    obtain ⟨out', hout, -, hback⟩ := applyStream_twice own peer hiv text
    obtain rfl : out' = out := Except.ok.inj (hout.symm.trans h)
    exact hback
  exact ⟨hback, hback⟩

/-- What is returned for a blob: the length is looked at first, then the point, then the tag. -/
inductive Verdict (recipient : PrivateKey) (blob : Bytes) : Except SealError Bytes → Prop
  | tooShort (h : blob.length < 113) : Verdict recipient blob (.error (.tooShort blob.length 113))
  | invalidSender (hlong : 113 ≤ blob.length)
      (h : ¬∃ x y, (Point.affine x y).OnCurve ∧ blob.take 65 = embedding x y) :
      Verdict recipient blob (.error .invalidSender)
  | tagMismatch {x y : Coord} {iv ciphertext given : Bytes} (hframe : Frame blob x y iv ciphertext given)
      (h : given ≠ tag (sharedKeys recipient x y) iv ciphertext) : Verdict recipient blob (.error .tagMismatch)
  | opened {x y : Coord} {iv ciphertext plaintext : Bytes}
      (hframe : Frame blob x y iv ciphertext (tag (sharedKeys recipient x y) iv ciphertext))
      (h : applyStream (sharedKeys recipient x y) iv plaintext = .ok ciphertext) :
      Verdict recipient blob (.ok plaintext)

theorem result_decrypt_of_frame (recipient : PrivateKey) (h : Frame blob x y iv ciphertext given) :
    (decrypt recipient blob).result =
      if tag (sharedKeys recipient x y) iv ciphertext ≠ given then .error .tagMismatch
      else applyStream (sharedKeys recipient x y) iv ciphertext := by
  rw [h.blob_eq]
  have hvalid : PublicKey.Valid ⟨.uncompressed, .affine x y⟩ := ⟨h.onCurve, nofun⟩
  exact result_decrypt_frame recipient hvalid h.length_iv ciphertext h.length_given

theorem Verdict.result_eq {outcome : Except SealError Bytes} (h : Verdict recipient blob outcome) :
    (decrypt recipient blob).result = outcome := by
  cases h with
  | tooShort h =>
    rw [result_decrypt, if_pos]
    · rfl
    · exact h
  | invalidSender hlong h =>
    rw [result_decrypt, if_neg]
    · split
      · rfl
      · cases hread : PublicKey.ofBytes (cut blob).embedded with
        | error e => rfl
        | ok sender =>
          obtain ⟨x, y, hcurve, -, hembedded⟩ :=
            (PublicKey.ofBytes_eq_ok_of_length (length_embedded_cut hlong)).1 hread
          exact absurd ⟨x, y, hcurve, hembedded⟩ h
    · exact Nat.not_lt.2 hlong
  | tagMismatch hframe h => rw [result_decrypt_of_frame recipient hframe, if_pos h.symm]
  | opened hframe h =>
    rw [result_decrypt_of_frame recipient hframe, if_neg (not_not.2 rfl)]
    exact (applyStream_eq_ok_comm hframe.length_iv).1 h

/-- There is a verdict on every blob. -/
theorem exists_verdict (recipient : PrivateKey) (blob : Bytes) : ∃ outcome, Verdict recipient blob outcome := by
  rcases short_or_pointless_or_frame blob with hshort | ⟨hlong, hnone⟩ | ⟨x, y, iv, ciphertext, given, hframe⟩
  · exact ⟨_, .tooShort hshort⟩
  · exact ⟨_, .invalidSender hlong hnone⟩
  · by_cases hgiven : given = tag (sharedKeys recipient x y) iv ciphertext
    · rw [hgiven] at hframe
      obtain ⟨plaintext, htake, -, hput⟩ := applyStream_twice recipient ⟨.uncompressed, .affine x y⟩
        hframe.length_iv ciphertext
      exact ⟨_, .opened hframe hput⟩
    · exact ⟨_, .tagMismatch hframe hgiven⟩

theorem verdict_decrypt (recipient : PrivateKey) (blob : Bytes) :
    Verdict recipient blob (decrypt recipient blob).result := by
  obtain ⟨outcome, h⟩ := exists_verdict recipient blob
  rw [h.result_eq]
  exact h

theorem decrypt_eq_iff {outcome : Except SealError Bytes} :
    (decrypt recipient blob).result = outcome ↔ Verdict recipient blob outcome :=
  ⟨fun h => h ▸ verdict_decrypt recipient blob, Verdict.result_eq⟩

theorem Verdict.length_eq (h : Verdict recipient blob (.ok plaintext)) : blob.length = plaintext.length + 113 := by
  cases h with
  | opened hframe h => rw [hframe.length_eq, length_of_applyStream h]

theorem verdict_ok_iff :
    Verdict recipient blob (.ok plaintext) ↔
      ∃ x y iv, (Point.affine x y).OnCurve ∧ iv.length = 16 ∧
        enclose (embedding x y) (sharedKeys recipient x y) iv plaintext = .ok blob := by
  constructor
  · intro h
    cases h with
    | opened hframe h =>
      exact ⟨_, _, _, hframe.onCurve, hframe.length_iv, enclose_eq_ok.2 ⟨_, h, hframe.blob_eq.symm⟩⟩
  · rintro ⟨x, y, iv, hcurve, hiv, hseal⟩
    obtain ⟨ciphertext, hput, rfl⟩ := enclose_eq_ok.1 hseal
    exact .opened ⟨rfl, hcurve, hiv, length_tag _ iv ciphertext⟩ hput

/-- Opening a blob fails in one of three ways or gives the text of which the blob is the seal, under the keys
that the recipient shares with the point that it begins with. So a text is opened from what senders make of it for
the recipient, and from nothing else. -/
theorem decrypt_outcome (recipient : PrivateKey) (blob : Bytes) :
    let result := (decrypt recipient blob).result
    (∀ available required, result = .error (.tooShort available required) ↔
      blob.length < 113 ∧ available = blob.length ∧ required = 113) ∧
    (result = .error .invalidSender ↔
      113 ≤ blob.length ∧ ¬∃ x y, (Point.affine x y).OnCurve ∧ blob.take 65 = embedding x y) ∧
    (result = .error .tagMismatch ↔
      ∃ x y iv ciphertext given, Frame blob x y iv ciphertext given ∧
        given ≠ tag (sharedKeys recipient x y) iv ciphertext) ∧
    (∀ plaintext, result = .ok plaintext ↔
      blob.length = plaintext.length + 113 ∧
        ∃ x y iv, (Point.affine x y).OnCurve ∧ iv.length = 16 ∧
          enclose (embedding x y) (sharedKeys recipient x y) iv plaintext = .ok blob) ∧
    (∀ plaintext, result = .ok plaintext ↔
      ∃ sender iv, iv.length = 16 ∧
        create sender (KeyPair.ofPrivate recipient).publicKey iv plaintext = .ok blob) ∧
    result ≠ .error .cipherSetup ∧
    (blob.length < 113 ∨
      (cut blob).join = blob ∧ (cut blob).embedded.length = 65 ∧ (cut blob).iv.length = 16 ∧
        (cut blob).ciphertext.length + 113 = blob.length ∧ (cut blob).given.length = 32) := by
  simp only [ne_eq, decrypt_eq_iff]
  refine ⟨fun available required => ⟨?_, ?_⟩, ⟨?_, ?_⟩, ⟨?_, ?_⟩, fun plaintext => ⟨?_, ?_⟩, fun plaintext => ?_,
    ?_, ?_⟩
  · intro h
    cases h with
    | tooShort h => exact ⟨h, rfl, rfl⟩
  · rintro ⟨h, rfl, rfl⟩
    exact .tooShort h
  · intro h
    cases h with
    | invalidSender hlong h => exact ⟨hlong, h⟩
  · rintro ⟨hlong, h⟩
    exact .invalidSender hlong h
  · intro h
    cases h with
    | tagMismatch hframe h => exact ⟨_, _, _, _, _, hframe, h⟩
  · rintro ⟨x, y, iv, ciphertext, given, hframe, h⟩
    exact .tagMismatch hframe h
  · exact fun h => ⟨h.length_eq, verdict_ok_iff.1 h⟩
  · exact fun h => verdict_ok_iff.2 h.2
  · exact verdict_ok_iff.trans exists_enclose_iff_exists_create
  · intro h
    cases h
  · rcases Nat.lt_or_ge blob.length 113 with hshort | hlong
    · exact .inl hshort
    · exact .inr ⟨join_cut blob, length_embedded_cut hlong, length_iv_cut hlong, length_ciphertext_cut hlong,
        length_given_cut hlong⟩

end Wallet.Seal
