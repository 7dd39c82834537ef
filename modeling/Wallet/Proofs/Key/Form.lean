import Wallet.Address
import Wallet.Document
import Wallet.Proofs.Key
import Wallet.Proofs.Text.Hex
import Wallet.Signature.Signer

/-! Public keys of one point in several forms. Only the equality of keys and the form itself look at the bytes; all
else depends on the point (`Alike`), and every form is read back as it was written (`forms_agree`). The bytes of a key
are not determined by its point and their number: a point with even `y` is also read behind the tag of the compact
form, as a key of its own (`unique_up_to_compact`). -/

namespace Wallet

theorem Address.ofPublicKey_congr {a b : PublicKey} (h : a.point = b.point) (hash : DomainHash) :
    Address.ofPublicKey a hash = Address.ofPublicKey b hash := by
  unfold Address.ofPublicKey
  rw [PublicKey.uncompressedBytes_congr h]

theorem KeyPair.ofKeys_eq_ok {privateKey : PrivateKey} {key : PublicKey} {pair : KeyPair} :
    ofKeys privateKey key = .ok pair ↔ pair.privateKey = privateKey ∧ pair.publicKey = key := by
  constructor
  · intro h
    unfold ofKeys at h
    split at h
    · cases h
      exact ⟨rfl, rfl⟩
    · cases h
  · rintro ⟨rfl, rfl⟩
    exact dif_pos pair.point_eq

theorem KeyPair.beq_iff {a b : KeyPair} : (a == b) = true ↔ a.publicKey = b.publicKey := by
  change (a.publicKey == b.publicKey) = true ↔ a.publicKey = b.publicKey
  exact beq_iff_eq

namespace PublicKey

variable {bs : Bytes} {key other : PublicKey}

/-! Reading back -/

theorem exists_ofBytes : (∃ bs, ofBytes bs = .ok key) ↔ key.Valid := by
  constructor
  · rintro ⟨bs, h⟩
    exact valid_of_ofBytes h
  · exact fun h => ⟨key.bytes, ofBytes_bytes h⟩

theorem ofHex_hex (h : key.Valid) : ofHex key.hex = .ok key := by
  have hparse : Hex.parse key.hex = .ok key.bytes := Hex.parse_encode key.bytes
  rw [ofHex, hparse]
  exact ofBytes_bytes h

theorem ofDocument_toDocument (h : key.Valid) : ofDocument key.toDocument = .ok key := by
  have htext : ofDocument key.toDocument = (ofHex key.hex).mapError .key := rfl
  rw [htext, ofHex_hex h]
  rfl

theorem uncompressedBytes_eq_iff (h : key.Valid) (hother : other.Valid) :
    other.uncompressedBytes = key.uncompressedBytes ↔ other.point = key.point := by
  refine ⟨fun hbytes => ?_, uncompressedBytes_congr⟩
  have hread := ofBytes_uncompressedBytes hother
  rw [hbytes, ofBytes_uncompressedBytes h, Except.ok.injEq] at hread
  exact congrArg (·.point) hread.symm

/-! What depends on the point -/

/-- Two keys that only their bytes tell apart. -/
structure Alike (a b : PublicKey) : Prop where
  uncompressedBytes : a.uncompressedBytes = b.uncompressedBytes
  address : ∀ hash, Address.ofPublicKey a hash = Address.ofPublicKey b hash
  verify : ∀ hash message σ, Verifier.verify ⟨a, hash⟩ message σ = Verifier.verify ⟨b, hash⟩ message σ
  owner : ∀ privateKey,
    (KeyPair.ofKeys privateKey a).map (·.privateKey) = (KeyPair.ofKeys privateKey b).map (·.privateKey)

theorem alike_of_point {a b : PublicKey} (h : a.point = b.point) : Alike a b where
  uncompressedBytes := uncompressedBytes_congr h
  address := Address.ofPublicKey_congr h
  verify hash message σ := by simp only [Verifier.verify, verifyMessage, h]
  owner privateKey := by
    by_cases hpoint : b.point = privateKey.publicPoint
    · simp only [KeyPair.ofKeys, h, hpoint, dif_pos, Except.map]
    · simp only [KeyPair.ofKeys, h, hpoint, dif_neg, not_false_eq_true, Except.map]

/-- Both other forms of a key that was read are read as well, and each is made from the other. The key is read back in
its own form, also from text, and nothing but the bytes tells it from another key of its point. -/
theorem forms_agree (h : ofBytes bs = .ok key) :
    ofBytes key.compressed.bytes = .ok key.compressed ∧ ofBytes key.uncompressed.bytes = .ok key.uncompressed ∧
    key.compressed.compressed = key.compressed ∧ key.uncompressed.uncompressed = key.uncompressed ∧
    key.uncompressed.compressed = key.compressed ∧ key.compressed.uncompressed = key.uncompressed ∧
    key.bytes = bs ∧ ofHex key.hex = .ok key ∧ ofDocument key.toDocument = .ok key ∧
    Alike key.compressed key ∧ Alike key.uncompressed key ∧
    (∀ bs' other, ofBytes bs' = .ok other → other.uncompressedBytes = key.uncompressedBytes → Alike other key) ∧
    ∀ privateKey pair, KeyPair.ofKeys privateKey key = .ok pair → pair.publicKey = key := by
  have ⟨hvalid, hbytes⟩ := ofBytes_eq_ok.1 h
  refine ⟨ofBytes_bytes hvalid.compressed, ofBytes_bytes hvalid.uncompressed, rfl, rfl, rfl, rfl, hbytes,
    ofHex_hex hvalid, ofDocument_toDocument hvalid, alike_of_point rfl, alike_of_point rfl, ?_, ?_⟩
  · intro bs' other hother hpoint
    exact alike_of_point ((uncompressedBytes_eq_iff hvalid (valid_of_ofBytes hother)).1 hpoint)
  · intro privateKey pair hpair
    exact (KeyPair.ofKeys_eq_ok.1 hpair).2

theorem generatorKey_forms_agree :
    ofBytes generatorKey.bytes = .ok generatorKey ∧
      ofBytes generatorKey.compressed.bytes = .ok generatorKey.compressed ∧
      Alike generatorKey.compressed generatorKey := by
  have h := ofBytes_bytes generatorKey_valid
  obtain ⟨hcompressed, -, -, -, -, -, -, -, -, halike, -⟩ := forms_agree h
  exact ⟨h, hcompressed, halike⟩

/-! Forms by their bytes -/

theorem form_eq_uncompressed_iff (h : key.Valid) : key.form = .uncompressed ↔ key.bytes.length = 65 := by
  rw [length_bytes h.ne_infinity]
  cases key.form <;> decide

theorem form_ne_uncompressed_iff (h : key.Valid) : key.form ≠ .uncompressed ↔ key.bytes.length = 33 := by
  rw [length_bytes h.ne_infinity]
  cases key.form <;> decide

theorem form_eq_compact_iff (h : key.Valid) : key.form = .compact ↔ key.bytes.head? = some 0x05 := by
  obtain ⟨form, point⟩ := key
  cases point with
  | infinity => exact h.elim
  | affine x y =>
    cases form with
    | compressed => cases hodd : y.isOdd <;> simp [bytes, Curve.Point.encode, hodd]
    | uncompressed => simp [bytes, Curve.Point.encode, Curve.uncompressedTag]
    | compact => simp [bytes, Curve.Point.encode]

/-- The points that have a compact form are those whose compressed form starts with 02. -/
theorem valid_compact_iff (h : key.Valid) :
    Valid ⟨.compact, key.point⟩ ↔ key.compressed.bytes.head? = some 0x02 := by
  obtain ⟨form, point⟩ := key
  cases point with
  | infinity => exact h.elim
  | affine x y => cases hodd : y.isOdd <;> simp [Valid, PublicKey.compressed, bytes, Curve.Point.encode, h.1, hodd]

theorem eq_iff_form_eq (hpoint : other.point = key.point) : other = key ↔ other.form = key.form := by
  obtain ⟨form, point⟩ := key
  obtain ⟨form', point'⟩ := other
  cases hpoint
  simp only [PublicKey.mk.injEq, and_true]

theorem uncompressed_eq_self (h : key.Valid) (hlength : key.bytes.length = 65) : key.uncompressed = key := by
  have hpoint : key.uncompressed.point = key.point := rfl
  rw [eq_iff_form_eq hpoint, (form_eq_uncompressed_iff h).2 hlength]
  rfl

theorem compressed_eq_self_iff (h : key.Valid) (hlength : key.bytes.length = 33) :
    key.compressed = key ↔ key.bytes.head? ≠ some 0x05 := by
  have hform := (form_ne_uncompressed_iff h).2 hlength
  have hpoint : key.compressed.point = key.point := rfl
  rw [eq_iff_form_eq hpoint, Ne, ← form_eq_compact_iff h]
  change Curve.Form.compressed = key.form ↔ _
  cases hkey : key.form with
  | compressed => decide
  | uncompressed => exact absurd hkey hform
  | compact => decide

theorem eq_iff_tag (h : key.Valid) (hother : other.Valid) (hpoint : other.point = key.point)
    (hlength : other.bytes.length = key.bytes.length) :
    other = key ↔ (other.bytes.head? = some 0x05 ↔ key.bytes.head? = some 0x05) := by
  rw [length_bytes hother.ne_infinity, length_bytes h.ne_infinity] at hlength
  rw [eq_iff_form_eq hpoint, ← form_eq_compact_iff h, ← form_eq_compact_iff hother]
  -- forms of one length are the same but for compressed and compact
  cases hform : other.form <;> cases hform' : key.form <;> rw [hform, hform'] at hlength <;> revert hlength <;> decide

theorem valid_of_point_iff (h : key.Valid) :
    other.Valid ∧ other.point = key.point ↔
      other = key.compressed ∨ other = key.uncompressed ∨
        other = ⟨.compact, key.point⟩ ∧ key.compressed.bytes.head? = some 0x02 := by
  constructor
  · obtain ⟨form, point⟩ := other
    rintro ⟨hother, rfl⟩
    cases form with
    | compressed => exact .inl rfl
    | uncompressed => exact .inr (.inl rfl)
    | compact => exact .inr (.inr ⟨rfl, (valid_compact_iff h).1 hother⟩)
  · rintro (rfl | rfl | ⟨rfl, htag⟩)
    · exact ⟨h.compressed, rfl⟩
    · exact ⟨h.uncompressed, rfl⟩
    · exact ⟨(valid_compact_iff h).2 htag, rfl⟩

/-- A key that was read is the one with these bytes. In 65 bytes it is the uncompressed form of its point; in 33
bytes the compressed form, unless they start with 05. A point has these two keys, and a third one that starts with 05
if its compressed form starts with 02. -/
theorem unique_up_to_compact (h : ofBytes bs = .ok key) :
    key.bytes = bs ∧
    (bs.length = 65 → key.uncompressed = key) ∧
    (bs.length = 33 → (key.compressed = key ↔ bs.head? ≠ some 0x05)) ∧
    (∀ bs' other, ofBytes bs' = .ok other → (other = key ↔ bs' = bs)) ∧
    (∀ bs' other, ofBytes bs' = .ok other → other.point = key.point → bs'.length = bs.length →
      (other = key ↔ (bs'.head? = some 0x05 ↔ bs.head? = some 0x05))) ∧
    (∀ other, (∃ bs', ofBytes bs' = .ok other) ∧ other.point = key.point ↔
      other = key.compressed ∨ other = key.uncompressed ∨
        other = ⟨.compact, key.point⟩ ∧ key.compressed.bytes.head? = some 0x02) ∧
    ∀ privateKey : PrivateKey, privateKey.publicPoint = key.point → bs.length = 33 →
      ∃ pair, KeyPair.ofKeys privateKey key = .ok pair ∧
        ((pair == KeyPair.ofPrivate privateKey) = true ↔ bs.head? ≠ some 0x05) := by
  obtain ⟨hvalid, rfl⟩ := ofBytes_eq_ok.1 h
  refine ⟨rfl, uncompressed_eq_self hvalid, compressed_eq_self_iff hvalid, ?_, ?_, fun other => ?_, ?_⟩
  · intro bs' other hother
    constructor
    · rintro rfl
      exact (ofBytes_eq_ok.1 hother).2.symm
    · rintro rfl
      exact Except.ok.inj (hother.symm.trans h)
  · intro bs' other hother hpoint hlength
    obtain ⟨hvalid', rfl⟩ := ofBytes_eq_ok.1 hother
    exact eq_iff_tag hvalid hvalid' hpoint hlength
  · rw [exists_ofBytes, valid_of_point_iff hvalid]
  · intro privateKey hpoint hlength
    have hderived : (KeyPair.ofPrivate privateKey).publicKey = key.compressed := by
      rw [PublicKey.compressed, ← hpoint]
      rfl
    refine ⟨⟨privateKey, key, hpoint.symm⟩, KeyPair.ofKeys_eq_ok.2 ⟨rfl, rfl⟩, ?_⟩
    rw [KeyPair.beq_iff, hderived, ← compressed_eq_self_iff hvalid hlength]
    exact eq_comm

theorem generatorKey_unique_up_to_compact :
    ofBytes generatorKey.bytes = .ok generatorKey ∧ generatorKey.uncompressed = generatorKey ∧
      ∀ other, (∃ bs, ofBytes bs = .ok other) ∧ other.point = .generator ↔
        other = ⟨.compressed, .generator⟩ ∨ other = ⟨.uncompressed, .generator⟩ ∨ other = ⟨.compact, .generator⟩ := by
  have h := ofBytes_bytes generatorKey_valid
  have htag : generatorKey.compressed.bytes.head? = some 0x02 := by decide
  obtain ⟨-, hwide, -, -, -, hkeys, -⟩ := unique_up_to_compact h
  refine ⟨h, hwide (by decide), fun other => ?_⟩
  rw [← and_iff_left htag (a := other = ⟨.compact, .generator⟩)]
  exact hkeys other

/-- The abscissa of the generator behind the tag of the compact form. -/
def compactGenerator : Bytes :=
  [0x05, 0x79, 0xbe, 0x66, 0x7e, 0xf9, 0xdc, 0xbb, 0xac, 0x55, 0xa0, 0x62, 0x95, 0xce, 0x87, 0x0b, 0x07,
   0x02, 0x9b, 0xfc, 0xdb, 0x2d, 0xce, 0x28, 0xd9, 0x59, 0xf2, 0x81, 0x5b, 0x16, 0xf8, 0x17, 0x98]

/-- These 33 bytes are read as a key that is not its own compressed form, and that the private key 1 belongs to in a
pair other than the derived one. -/
theorem compactGenerator_differs :
    ∃ key, compactGenerator.length = 33 ∧ ofBytes compactGenerator = .ok key ∧ key.compressed ≠ key ∧
      ∃ pair : KeyPair, pair.privateKey.scalar = 1 ∧ KeyPair.ofKeys pair.privateKey key = .ok pair ∧
        (pair == KeyPair.ofPrivate pair.privateKey) = false := by
  have hvalid : Valid ⟨.compact, .generator⟩ := ⟨Curve.Point.generator_onCurve, fun _ => by decide⟩
  have hbytes : bytes ⟨.compact, .generator⟩ = compactGenerator := by decide
  let key : PrivateKey := ⟨1, by decide⟩
  have hpoint : key.publicPoint = .generator := PrivateKey.publicPoint_of_one rfl
  refine ⟨_, rfl, ofBytes_eq_ok.2 ⟨hvalid, hbytes⟩, by decide, ⟨key, ⟨.compact, .generator⟩, hpoint.symm⟩, rfl,
    KeyPair.ofKeys_eq_ok.2 ⟨rfl, rfl⟩, ?_⟩
  have hform : Curve.Form.compact ≠ .compressed := by decide
  rw [← Bool.not_eq_true, KeyPair.beq_iff, eq_iff_form_eq hpoint.symm]
  exact hform

end PublicKey
end Wallet
