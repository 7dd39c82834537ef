import Wallet.Document
import Wallet.Proofs.Text.Hex

/-! Addresses as texts. A text is read as the address whose 40 digits it spells, and an address is printed with these
digits in lower case, so texts of one address differ in the mark and in the case of digits only. What is refused is
refused first for an odd number of bytes, then for a byte that is no digit, and last for the number of bytes that the
digits write. Main statement: `text_forms`. -/

namespace Wallet.Address

open Text (utf8)

variable {a b : Address} {bs : Bytes} {e : Hex.Error} {text other : String} {ds : List Char} {n : Nat}

theorem length_toList (a : Address) : a.toList.length = 20 := a.bytes.length_toList

theorem ofBytes_toList (a : Address) : ofBytes a.toList = .ok a := by
  unfold ofBytes
  rw [dif_pos a.length_toList]
  rfl

theorem ofBytes_eq_ok : ofBytes bs = .ok a ↔ bs = a.toList := by
  constructor
  · intro h
    unfold ofBytes at h
    split at h
    · cases h
      rfl
    · cases h
  · rintro rfl
    exact a.ofBytes_toList

theorem exists_ofBytes : (∃ a, ofBytes bs = .ok a) ↔ bs.length = 20 := by
  constructor
  · rintro ⟨a, ha⟩
    rw [ofBytes_eq_ok.1 ha, length_toList]
  · exact fun h => ⟨_, dif_pos h⟩

theorem ofBytes_eq_length : ofBytes bs = .error (.length n) ↔ n ≠ 20 ∧ bs.length = n := by
  unfold ofBytes
  split
  · rename_i h
    exact iff_of_false nofun fun hn => hn.1 (hn.2.symm.trans h)
  · rename_i h
    rw [Except.error.injEq, AddressError.length.injEq]
    exact ⟨fun hn => ⟨hn ▸ h, hn⟩, And.right⟩

/-! Reading -/

theorem ofHex_of_parse (h : Hex.parse text = .ok bs) : ofHex text = ofBytes bs := by
  rw [ofHex, h]
  rfl

theorem ofHex_of_parse_error (h : Hex.parse text = .error e) : ofHex text = .error (.hex e) := by
  rw [ofHex, h]
  rfl

theorem ofHex_eq_hex : ofHex text = .error (.hex e) ↔ Hex.parse text = .error e := by
  cases hparse : Hex.parse text with
  | error e' => rw [ofHex_of_parse_error hparse, Except.error.injEq, AddressError.hex.injEq, Except.error.injEq]
  | ok bs =>
    rw [ofHex_of_parse hparse, ofBytes]
    split
    · exact iff_of_false nofun nofun
    · exact iff_of_false nofun nofun

theorem ofHex_eq_ok : ofHex text = .ok a ↔ Hex.parse text = .ok a.toList := by
  cases hparse : Hex.parse text with
  | error e =>
    rw [ofHex_of_parse_error hparse]
    exact iff_of_false nofun nofun
  | ok bs => rw [ofHex_of_parse hparse, ofBytes_eq_ok, Except.ok.injEq]

theorem exists_ofHex : (∃ a, ofHex text = .ok a) ↔ ∃ ds, Hex.Spells text ds ∧ ds.length = 40 := by
  rw [← Hex.exists_parse_iff (n := 20)]
  simp only [ofHex_eq_ok]
  constructor
  · rintro ⟨a, ha⟩
    exact ⟨a.toList, ha, a.length_toList⟩
  · rintro ⟨bs, hparse, hlength⟩
    obtain ⟨a, ha⟩ := exists_ofBytes.2 hlength
    exact ⟨a, ofBytes_eq_ok.1 ha ▸ hparse⟩

/-- The number of bytes that is refused is that of the digits, which are right otherwise. -/
theorem ofHex_eq_length :
    ofHex text = .error (.length n) ↔ n ≠ 20 ∧ ∃ ds, Hex.Spells text ds ∧ ds.length = 2 * n := by
  rw [← Hex.exists_parse_iff]
  cases hparse : Hex.parse text with
  | error e =>
    rw [ofHex_of_parse_error hparse]
    exact iff_of_false nofun fun ⟨_, _, h, _⟩ => nomatch h
  | ok bs => simp [ofHex_of_parse hparse, ofBytes_eq_length]

/-! Printing -/

theorem ofHex_hex (a : Address) : ofHex a.hex = .ok a := ofHex_eq_ok.2 (Hex.parse_encode a.toList)

theorem hex_inj : a.hex = b.hex ↔ a = b := by
  refine ⟨fun h => ?_, congrArg hex⟩
  have hread := a.ofHex_hex
  rw [h, ofHex_hex, Except.ok.injEq] at hread
  exact hread.symm

theorem hex_of_spells (h : ofHex text = .ok a) (hspells : Hex.Spells text ds) :
    a.hex = String.ofList (ds.map Char.toLower) := by
  obtain ⟨ds', hspells', hdigits⟩ := Hex.parse_eq_ok.1 (ofHex_eq_ok.1 h)
  have hsame : ds = ds' := by
    rw [← String.ofList_inj, ← Hex.afterMark_of_spells hspells, Hex.afterMark_of_spells hspells']
  rw [hex, Hex.encode_eq, hdigits, hsame]

/-- What is printed for a text is what is behind its mark, in lower case. -/
theorem toList_hex (h : ofHex text = .ok a) : a.hex.toList = (Hex.afterMark text).toList.map Char.toLower := by
  obtain ⟨ds, hspells, -⟩ := exists_ofHex.1 ⟨a, h⟩
  rw [hex_of_spells h hspells, Hex.afterMark_of_spells hspells, String.toList_ofList, String.toList_ofList]

theorem eq_iff_map_toLower (ha : ofHex text = .ok a) (hb : ofHex other = .ok b) :
    a = b ↔ (Hex.afterMark text).toList.map Char.toLower = (Hex.afterMark other).toList.map Char.toLower := by
  rw [← toList_hex ha, ← toList_hex hb, String.toList_inj, hex_inj]

theorem mapError_ofDocument (text : String) :
    (ofDocument (.text text)).mapError Document.Error.message = (ofHex text).mapError AddressError.message := by
  change ((ofHex text).mapError Document.Error.address).mapError _ = _
  cases ofHex text with
  | error e => rfl
  | ok a => rfl

/-- A text is read as an address exactly if it is 40 hex digits of either case behind at most one mark, and the
address is printed with these digits in lower case. So what is printed is read back, and texts are read as one address
if and only if they are alike without their marks and in lower case. All other texts are refused: those of an odd
number of bytes behind the mark, of the others those with a byte that is no digit, by the leftmost, and of the others
those that write another number of bytes than 20. -/
theorem text_forms :
    (∀ text,
      ((∃ a, ofHex text = .ok a) ↔ ∃ ds, Hex.Spells text ds ∧ ds.length = 40) ∧
      (∀ a ds, ofHex text = .ok a → Hex.Spells text ds → a.hex = String.ofList (ds.map Char.toLower)) ∧
      (ofHex text = .error (.hex .oddLength) ↔ (utf8 (Hex.afterMark text)).length % 2 = 1) ∧
      (∀ b i, ofHex text = .error (.hex (.invalidByte b i)) ↔
        (utf8 (Hex.afterMark text)).length % 2 = 0 ∧ Hex.FirstInvalid (Hex.afterMark text) b i) ∧
      (∀ n, ofHex text = .error (.length n) ↔ n ≠ 20 ∧ ∃ ds, Hex.Spells text ds ∧ ds.length = 2 * n) ∧
      parse text = ofHex text ∧
      (ofDocument (.text text)).mapError Document.Error.message = (ofHex text).mapError AddressError.message) ∧
    (∀ a : Address, ofHex a.hex = .ok a ∧ toString a = a.hex ∧ a.toDocument = .text a.hex) ∧
    (∀ text other a b, ofHex text = .ok a → ofHex other = .ok b →
      (a = b ↔ (Hex.afterMark text).toList.map Char.toLower = (Hex.afterMark other).toList.map Char.toLower)) ∧
    (∀ e : Hex.Error, e.message = "Odd number of digits" ↔ e = .oddLength) ∧
    ∀ b i, (Hex.Error.invalidByte b i).message = s!"Invalid character {Text.quoted b} at position {i}" := by
  refine ⟨fun text => ⟨exists_ofHex, ?_, ?_, ?_, fun n => ofHex_eq_length, rfl, mapError_ofDocument text⟩,
    fun a => ⟨a.ofHex_hex, rfl, rfl⟩, ?_, fun e => Hex.message_eq_odd, fun b i => rfl⟩
  · intro a ds ha hspells
    exact hex_of_spells ha hspells
  · rw [ofHex_eq_hex, Hex.parse_eq_oddLength]
  · intro b i
    rw [ofHex_eq_hex, Hex.parse_eq_invalidByte]
  · intro text other a b ha hb
    exact eq_iff_map_toLower ha hb

/-- A marked text with digits of both cases, and the text that is printed for it. -/
theorem mixed_text_forms :
    ∃ a, ofHex "0X0123456789abcdefABCDEF0123456789abcDEF01" = .ok a ∧
      ofHex "0123456789abcdefabcdef0123456789abcdef01" = .ok a ∧
      a.hex = "0123456789abcdefabcdef0123456789abcdef01" := by
  obtain ⟨hread, -, hsame, -⟩ := text_forms
  have hmarked : Hex.Spells "0X0123456789abcdefABCDEF0123456789abcDEF01"
      "0123456789abcdefABCDEF0123456789abcDEF01".toList := ⟨by decide, "0X", by simp, by decide⟩
  have hplain : Hex.Spells "0123456789abcdefabcdef0123456789abcdef01"
      "0123456789abcdefabcdef0123456789abcdef01".toList := ⟨by decide, "", by simp, by decide⟩
  obtain ⟨a, ha⟩ := (hread _).1.2 ⟨_, hmarked, by decide⟩
  obtain ⟨b, hb⟩ := (hread _).1.2 ⟨_, hplain, by decide⟩
  obtain rfl : a = b := (hsame _ _ _ _ ha hb).2 (by decide)
  exact ⟨a, ha, hb, (hread _).2.1 a _ hb hplain⟩

-- behind the first of two marks, digits break off at the letter of the second
example : ofHex "0x0X\u00e9" = .error (.hex (.invalidByte 0x58 1)) := by decide

end Wallet.Address
