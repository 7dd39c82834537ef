import Wallet.Key.Private
import Wallet.Proofs.Text.Decimal
import Wallet.Proofs.Text.Hex

/-! Private keys in their notations: a word, 32 bytes, hex digits and decimal digits. Each of the readings first finds
the number that is written, below `2 ^ 256` or not at all, and only then asks whether it is a nonzero scalar, so the
number alone decides what is returned. Main statement: `constructors_agree`. -/

namespace Wallet.PrivateKey

open Text (IsNumeral number)

variable {n : Nat} {key : PrivateKey} {block : Bytes} {text : String} {ds : List Char}

/-! Numbers -/

theorem ofNat_eq_ok_iff : ofNat n = .ok key ↔ 0 < n ∧ key.scalar.val = n := by
  unfold ofNat
  constructor
  · intro h
    split at h
    · split at h
      · cases h
      · rename_i hz
        cases h
        exact ⟨Nat.pos_of_ne_zero (Fin.val_ne_zero_iff.2 hz), rfl⟩
    · cases h
  · rintro ⟨hpos, rfl⟩
    rw [dif_pos key.scalar.isLt, dif_neg key.nonzero]

theorem ofNat_of_invalid (h : ¬(0 < n ∧ n < Curve.order)) : ofNat n = .error .privateRange := by
  unfold ofNat
  split
  · rename_i hlt
    rw [dif_pos]
    exact Fin.ext (Nat.eq_zero_of_not_pos fun hpos => h ⟨hpos, hlt⟩)
  · rfl

theorem ofBytes_eq_ok_iff (hlength : block.length = size) :
    ofBytes block = .ok key ↔ 0 < block.toNat ∧ key.scalar.val = block.toNat := by
  rw [ofBytes, if_pos hlength, ofNat_eq_ok_iff]

theorem ofBytes_ofNat (h : n < 2 ^ 256) : ofBytes (Bytes.ofNat size n) = ofNat n := by
  have hwide : n < 256 ^ size := h
  rw [ofBytes, if_pos (Bytes.length_ofNat size n), Bytes.toNat_ofNat hwide]

theorem ofWord_eq (w : Word) : ofWord w = ofNat w.toNat := ofBytes_ofNat w.isLt

theorem ofWord_ofNat (h : n < 2 ^ 256) : ofWord (BitVec.ofNat 256 n) = ofNat n := by
  rw [ofWord_eq, BitVec.toNat_ofNat, Nat.mod_eq_of_lt h]

/-! Texts -/

theorem ofHex_of_parse (h : Hex.parse text = .ok block) :
    ofHex text = if size < block.length then .error (.privateLength block.length) else ofNat block.toNat := by
  unfold ofHex
  rw [h, Except.mapError, Outcome.ok_bind]
  split
  · rfl
  · rename_i hshort
    rw [ofWord_eq, Word.toNat_ofBytes (Nat.le_of_not_lt hshort)]

theorem ofHex_of_spells (h : Hex.Spells text ds) (heven : ds.length % 2 = 0) :
    ofHex text = if 64 < ds.length then .error (.privateLength (ds.length / 2)) else ofNat (number 16 ds) := by
  obtain ⟨bs, hparse, hlength, hnumber⟩ := Hex.parse_of_spells h heven
  have hlarge : size < bs.length ↔ 64 < ds.length := by
    rw [size, hlength]
    omega
  have hhalf : ds.length / 2 = bs.length := by omega
  simp only [ofHex_of_parse hparse, hlarge, hhalf, hnumber]

theorem ofHex_cases (text : String) :
    (∃ ds, Hex.Spells text ds ∧ ds.length % 2 = 0) ∨ ∃ e, ofHex text = .error (.hex e) := by
  cases hparse : Hex.parse text with
  | error e =>
    right
    refine ⟨e, ?_⟩
    rw [ofHex, hparse]
    rfl
  | ok bs =>
    obtain ⟨ds, hspells, hlength⟩ := Hex.spells_of_parse hparse
    exact .inl ⟨ds, hspells, by omega⟩

theorem ofDecimal_of_numeral (h : IsNumeral 10 ds) (hlt : number 10 ds < 2 ^ 256) :
    ofDecimal (String.ofList ds) = ofNat (number 10 ds) := by
  have hword : (BitVec.ofNat 256 (number 10 ds)).toNat = number 10 ds := Nat.mod_eq_of_lt hlt
  have hparse := Decimal.parse_eq_ok.2 ⟨ds, h, rfl, hword.symm⟩
  rw [ofDecimal, hparse, Except.mapError, Outcome.ok_bind, ofWord_eq, hword]

theorem ofDecimal_cases (text : String) :
    (∃ ds, IsNumeral 10 ds ∧ text = String.ofList ds ∧ number 10 ds < 2 ^ 256) ∨
      ∃ e, ofDecimal text = .error (.decimal e) := by
  cases hparse : Decimal.parse text with
  | error e =>
    right
    refine ⟨e, ?_⟩
    rw [ofDecimal, hparse]
    rfl
  | ok w =>
    obtain ⟨ds, hds, htext, hnumber⟩ := Decimal.parse_eq_ok.1 hparse
    exact .inl ⟨ds, hds, htext, hnumber ▸ w.isLt⟩

/-! What is exported -/

theorem scalar_pos (key : PrivateKey) : 0 < key.scalar.val := Nat.pos_of_ne_zero (Fin.val_ne_zero_iff.2 key.nonzero)

theorem scalar_lt (key : PrivateKey) : key.scalar.val < 2 ^ 256 := key.scalar.isLt.trans (by decide)

theorem ofNat_scalar (key : PrivateKey) : ofNat key.scalar.val = .ok key := ofNat_eq_ok_iff.2 ⟨key.scalar_pos, rfl⟩

theorem toNat_bytes (key : PrivateKey) : key.bytes.toNat = key.scalar.val := Bytes.toNat_ofNat key.scalar_lt

theorem length_bytes (key : PrivateKey) : key.bytes.length = size := Bytes.length_ofNat size key.scalar.val

theorem word_eq (key : PrivateKey) : key.word = BitVec.ofNat 256 key.scalar.val := by
  rw [word, Word.ofBytes, toNat_bytes]

/-- The hex form has 64 digits in lower case, which write the scalar. -/
theorem hex_eq (key : PrivateKey) :
    ∃ ds, key.hex = String.ofList ds ∧ ds.length = 64 ∧ (∀ c ∈ ds, c ∈ Text.digits) ∧
      number 16 ds = key.scalar.val := by
  refine ⟨Hex.digitsOf key.bytes, Hex.encode_eq key.bytes, ?_, Hex.digitsOf_subset key.bytes, ?_⟩
  · rw [Hex.length_digitsOf, length_bytes, size]
  · rw [Hex.number_digitsOf, toNat_bytes]

theorem ofHex_hex (key : PrivateKey) : ofHex key.hex = .ok key := by
  have hparse : Hex.parse key.hex = .ok key.bytes := Hex.parse_encode key.bytes
  rw [ofHex_of_parse hparse, if_neg, toNat_bytes, ofNat_scalar]
  rw [length_bytes]
  exact lt_irrefl size

/-- All notations of a number below `2 ^ 256` are read as one key, whose notations write the number again, or are
refused alike if it is no nonzero scalar. Every other text or length is refused for what it is: bytes for their
length, hex digits of more than 32 bytes for the length of these, and all other texts for their spelling. -/
theorem constructors_agree :
    (∀ n < 2 ^ 256,
      ofWord (BitVec.ofNat 256 n) = ofNat n ∧
      ofBytes (Bytes.ofNat 32 n) = ofNat n ∧
      (∀ text ds, Hex.Spells text ds → ds.length % 2 = 0 → ds.length ≤ 64 → number 16 ds = n →
        ofHex text = ofNat n) ∧
      (∀ ds, IsNumeral 10 ds → number 10 ds = n → ofDecimal (String.ofList ds) = ofNat n) ∧
      (0 < n ∧ n < Curve.order → ∃ key, ofNat n = .ok key ∧
        key.word = BitVec.ofNat 256 n ∧ key.bytes = Bytes.ofNat 32 n ∧
        ∃ ds, key.hex = String.ofList ds ∧ ds.length = 64 ∧ (∀ c ∈ ds, c ∈ Text.digits) ∧ number 16 ds = n) ∧
      (¬(0 < n ∧ n < Curve.order) → ofNat n = .error .privateRange)) ∧
    (∀ key : PrivateKey, ofWord key.word = .ok key ∧ ofBytes key.bytes = .ok key ∧ ofHex key.hex = .ok key) ∧
    (∀ bs, bs.length ≠ 32 → ofBytes bs = .error (.privateLength bs.length)) ∧
    (∀ text,
      (∃ ds, Hex.Spells text ds ∧ ds.length % 2 = 0 ∧ ds.length ≤ 64) ∨
      (∃ ds, Hex.Spells text ds ∧ ds.length % 2 = 0 ∧ 64 < ds.length ∧
        ofHex text = .error (.privateLength (ds.length / 2))) ∨
      ∃ e, ofHex text = .error (.hex e)) ∧
    ∀ text,
      (∃ ds, IsNumeral 10 ds ∧ text = String.ofList ds ∧ number 10 ds < 2 ^ 256) ∨
      ∃ e, ofDecimal text = .error (.decimal e) := by
  refine ⟨fun n hn => ⟨ofWord_ofNat hn, ofBytes_ofNat hn, ?_, ?_, ?_, ofNat_of_invalid⟩, fun key => ⟨?_, ?_, ?_⟩,
    fun bs h => if_neg h, fun text => ?_, ofDecimal_cases⟩
  · rintro text ds hspells heven hshort rfl
    rw [ofHex_of_spells hspells heven, if_neg (Nat.not_lt.2 hshort)]
  · rintro ds hds rfl
    exact ofDecimal_of_numeral hds hn
  · rintro ⟨hpos, hlt⟩
    obtain ⟨key, hkey⟩ := ofNat_eq_ok hpos.ne' hlt
    obtain ⟨-, rfl⟩ := ofNat_eq_ok_iff.1 hkey
    exact ⟨key, hkey, key.word_eq, rfl, key.hex_eq⟩
  · rw [word_eq, ofWord_ofNat key.scalar_lt, ofNat_scalar]
  · exact (ofBytes_ofNat key.scalar_lt).trans key.ofNat_scalar
  · exact key.ofHex_hex
  · rcases ofHex_cases text with ⟨ds, hspells, heven⟩ | hinvalid
    · rcases Nat.lt_or_ge 64 ds.length with hlong | hshort
      · refine .inr (.inl ⟨ds, hspells, heven, hlong, ?_⟩)
        rw [ofHex_of_spells hspells heven, if_pos hlong]
      · exact .inl ⟨ds, hspells, heven, hshort⟩
    · exact .inr (.inr hinvalid)

/-- The number 46 with a mark and an upper case digit, and with leading zeros. -/
theorem fortySix_agree :
    ofHex "0X2E" = ofNat 46 ∧ ofDecimal "0046" = ofNat 46 ∧ ∃ key, ofNat 46 = .ok key ∧ key.word = 46 := by
  obtain ⟨hagree, -⟩ := constructors_agree
  obtain ⟨-, -, hhex, hdecimal, hvalid, -⟩ := hagree 46 (by decide)
  obtain ⟨key, hkey, hword, -⟩ := hvalid (by decide)
  have hspells : Hex.Spells "0X2E" ['2', 'E'] := ⟨by decide, "0X", by decide, rfl⟩
  have hdigits : IsNumeral 10 ['0', '0', '4', '6'] := by decide
  exact ⟨hhex "0X2E" ['2', 'E'] hspells rfl (by decide) (by decide), hdecimal _ hdigits (by decide), key, hkey, hword⟩

end Wallet.PrivateKey
