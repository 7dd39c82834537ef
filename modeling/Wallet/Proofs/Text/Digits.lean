import Mathlib.Data.List.Basic
import Wallet.Text.Quoted

/-! Digits of a base up to 16, as characters, and the number that a run of them writes. All of them are ASCII
characters, which are one byte each in UTF-8 (`utf8_ofList`), and runs of such bytes come from no other text
(`exists_ascii`, `exists_append_of_utf8`, `utf8_inj`): what is read byte by byte is read digit by digit. -/

namespace Wallet.Text

/-- The digits in the order of their values. -/
def digits : List Char := ['0', '1', '2', '3', '4', '5', '6', '7', '8', '9', 'a', 'b', 'c', 'd', 'e', 'f']

/-- The value of a digit of either case, and 16 for every character that is none. -/
def digitValue (c : Char) : Nat := digits.idxOf c.toLower

/-- A run of digits of a base. -/
def IsNumeral (base : Nat) (ds : List Char) : Prop := ∀ c ∈ ds, digitValue c < base

-- by a walk over the digits: a search for an instance may run through all characters
instance (base : Nat) (ds : List Char) : Decidable (IsNumeral base ds) :=
  List.decidableBAll (fun c => digitValue c < base) ds

/-- The number that a run of digits writes behind the number `n`. -/
def numberFrom (base n : Nat) (ds : List Char) : Nat := ds.foldl (fun n c => n * base + digitValue c) n

/-- The number that a run of digits writes. -/
def number (base : Nat) (ds : List Char) : Nat := numberFrom base 0 ds

section Ascii

variable {c : Char} {cs : List Char}

def IsAscii (cs : List Char) : Prop := ∀ c ∈ cs, c.toNat < 128

/-- The byte of an ASCII character. -/
def byte (c : Char) : UInt8 := UInt8.ofNat c.toNat

/-- What holds of the ASCII characters one by one holds of all. -/
@[elab_as_elim]
theorem forall_ascii {motive : Char → Prop} (hc : c.toNat < 128) (h : ∀ n < 128, motive (Char.ofNat n)) :
    motive c := by
  rw [← Char.ofNat_toNat c]
  exact h _ hc

theorem utf8_eq (s : String) : utf8 s = s.toByteArray.data.toList := rfl

theorem utf8_append (s t : String) : utf8 (s ++ t) = utf8 s ++ utf8 t := by
  rw [utf8_eq, utf8_eq, utf8_eq, String.toByteArray_append, ByteArray.data_append, Array.toList_append]

theorem utf8_inj {s t : String} : utf8 s = utf8 t ↔ s = t := by
  rw [utf8_eq, utf8_eq, Array.toList_inj, ByteArray.ext_iff.symm, String.toByteArray_inj]

theorem utf8_ofList_cons (c : Char) (cs : List Char) :
    utf8 (String.ofList (c :: cs)) = String.utf8EncodeChar c ++ utf8 (String.ofList cs) := by
  simp only [utf8_eq, String.toByteArray_ofList, List.utf8Encode, List.toList_data_toByteArray, List.flatMap_cons]

theorem utf8_ofList (h : IsAscii cs) : utf8 (String.ofList cs) = cs.map byte := by
  induction cs with
  | nil => rfl
  | cons c cs ih =>
    have hc : c.toNat ≤ 127 := Nat.le_of_lt_succ (h c List.mem_cons_self)
    have hbyte : String.utf8EncodeChar c = [byte c] := if_pos hc
    rw [utf8_ofList_cons, hbyte, ih fun c hc => h c (List.mem_cons_of_mem _ hc)]
    rfl

/-- The code of a character begins with a byte below `0x80` only if it is that byte. -/
theorem eq_of_utf8EncodeChar {b : UInt8} {t : Bytes} (h : String.utf8EncodeChar c = b :: t) (hb : b.toNat < 128) :
    c.toNat = b.toNat ∧ t = [] := by
  rw [String.utf8EncodeChar.eq_1] at h
  split at h
  · rename_i hsmall
    cases h
    exact ⟨(Nat.mod_eq_of_lt (Nat.lt_of_le_of_lt hsmall (by decide))).symm, rfl⟩
  · -- the longer codes begin with a byte of at least `0xC0`
    have hlarge : ∀ n l, 192 ≤ n → n < 256 → UInt8.ofNat n :: l ≠ b :: t := by
      rintro n l hge hlt ⟨⟩
      rw [UInt8.toNat_ofNat'] at hb
      omega
    split at h
    · exact absurd h (hlarge _ _ (by omega) (by omega))
    · split at h
      · exact absurd h (hlarge _ _ (by omega) (by omega))
      · exact absurd h (hlarge _ _ (by omega) (by omega))

/-- A text whose bytes begin with those of ASCII characters begins with these. -/
theorem exists_append_of_utf8 {text : String} {t : Bytes} (hcs : IsAscii cs) (h : utf8 text = cs.map byte ++ t) :
    ∃ rest, text = String.ofList cs ++ rest ∧ utf8 rest = t := by
  induction cs generalizing text with
  | nil => exact ⟨text, String.empty_append.symm, h⟩
  | cons c cs ih =>
    have hc : c.toNat < 128 := hcs c List.mem_cons_self
    have hbyte : (byte c).toNat = c.toNat := Nat.mod_eq_of_lt (Nat.lt_trans hc (by decide))
    obtain ⟨ds, rfl⟩ : ∃ ds, text = String.ofList ds := ⟨text.toList, String.ofList_toList.symm⟩
    cases ds with
    | nil => cases h
    | cons d ds =>
      rw [utf8_ofList_cons] at h
      cases hcode : String.utf8EncodeChar d with
      | nil => exact absurd hcode String.utf8EncodeChar_ne_nil
      | cons b code =>
        rw [hcode] at h
        obtain ⟨hb, hrest⟩ := List.cons.inj h
        obtain ⟨hd, rfl⟩ := eq_of_utf8EncodeChar hcode (by rw [hb, hbyte]; exact hc)
        obtain rfl : d = c := Char.toNat_inj.1 (by rw [hd, hb, hbyte])
        obtain ⟨rest, htext, hutf8⟩ := ih (fun c hc => hcs c (List.mem_cons_of_mem _ hc)) hrest
        refine ⟨rest, ?_, hutf8⟩
        rw [String.ofList_cons, htext, String.ofList_cons, String.append_assoc]

/-- Bytes below `0x80` are those of ASCII characters. -/
theorem exists_ascii {bs : Bytes} (h : ∀ b ∈ bs, b.toNat < 128) : ∃ cs, IsAscii cs ∧ cs.map byte = bs := by
  have hchar : ∀ n < 128, (Char.ofNat n).toNat = n := by decide
  refine ⟨bs.map fun b => Char.ofNat b.toNat, ?_, ?_⟩
  · intro c hc
    obtain ⟨b, hb, rfl⟩ := List.mem_map.1 hc
    rw [hchar _ (h b hb)]
    exact h b hb
  · rw [List.map_map]
    refine (List.map_congr_left fun b hb => ?_).trans (List.map_id bs)
    rw [Function.comp_apply, byte, hchar _ (h b hb), UInt8.ofNat_toNat, id]

end Ascii

section Digits

variable {c : Char} {base : Nat} {ds : List Char}

theorem forall_digits {p : Char → Prop} [DecidablePred p] (h : digits.all (p ·) = true) : ∀ c ∈ digits, p c :=
  fun c hc => of_decide_eq_true (List.all_eq_true.1 h c hc)

theorem digitValue_lt_iff : digitValue c < 16 ↔ c.toLower ∈ digits := List.idxOf_lt_length_iff (l := digits)

theorem toNat_lt_of_digit (h : digitValue c < 16) : c.toNat < 128 := by
  have hdigits : ∀ d ∈ digits, d.toNat < 128 := forall_digits (by decide)
  rw [digitValue_lt_iff] at h
  delta Char.toLower at h
  split at h
  · rename_i hupper
    have hle : c.toNat ≤ 'Z'.toNat := hupper.2
    exact Nat.lt_of_le_of_lt hle (by decide)
  · exact hdigits c h

theorem IsNumeral.isAscii (h : IsNumeral base ds) (hbase : base ≤ 16) : IsAscii ds :=
  fun c hc => toNat_lt_of_digit (Nat.lt_of_lt_of_le (h c hc) hbase)

theorem digitValue_toLower (h : digitValue c < 16) : digitValue c.toLower = digitValue c := by
  have hdigits : ∀ d ∈ digits, d.toLower = d := forall_digits (by decide)
  rw [digitValue, hdigits _ (digitValue_lt_iff.1 h), digitValue]

/-- The case of digits plays no part in their number. -/
theorem number_map_toLower (h : IsNumeral 16 ds) : number base (ds.map Char.toLower) = number base ds := by
  unfold number numberFrom
  generalize 0 = n
  induction ds generalizing n with
  | nil => rfl
  | cons c ds ih =>
    rw [List.map_cons, List.foldl_cons, List.foldl_cons, digitValue_toLower (h c List.mem_cons_self)]
    exact ih (fun c hc => h c (List.mem_cons_of_mem _ hc)) _

theorem hexDigit_digitValue (h : digitValue c < 16) : hexDigit (digitValue c) = c.toLower := by
  have hdigits : ∀ n : Fin 16, hexDigit n = digits[n] := by decide
  have hget : digits[digits.idxOf c.toLower] = c.toLower := List.getElem_idxOf h
  rw [← hget]
  exact hdigits ⟨_, h⟩

end Digits

end Wallet.Text
