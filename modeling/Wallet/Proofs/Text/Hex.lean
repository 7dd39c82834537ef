import Mathlib.Data.List.Induction
import Wallet.Proofs.BigEndian
import Wallet.Proofs.Text.Digits
import Wallet.Text.Hex

/-! Hex texts and the bytes that they write. The texts that are read are the digits of bytes in either case, behind a
mark or not (`parse_eq_ok`): two for each byte, and of the same number (`number_digitsOf`). All others are refused for
what is behind the mark, by its bytes (`parse_eq_oddLength`, `parse_eq_invalidByte`). -/

namespace Wallet.Hex

open Text

/-- The digits of a byte string in lower case. -/
def digitsOf (bs : Bytes) : List Char := bs.flatMap fun b => [hexDigit (b.toNat / 16), hexDigit (b.toNat % 16)]

theorem encode_eq (bs : Bytes) : encode bs = String.ofList (digitsOf bs) := rfl

/-- A text of hex digits, of either case, behind at most one mark. -/
def Spells (text : String) (ds : List Char) : Prop :=
  IsNumeral 16 ds ∧ ∃ mark ∈ ["", "0x", "0X"], text = mark ++ String.ofList ds

/-- What is left of a text without the mark that it begins with, if it begins with one. -/
def afterMark (text : String) : String :=
  match text.toList with
  | '0' :: 'x' :: cs => String.ofList cs
  | '0' :: 'X' :: cs => String.ofList cs
  | _ => text

/-- The leftmost byte of a text that is no digit, behind as many digits as its index says. -/
def FirstInvalid (text : String) (b : UInt8) (i : Nat) : Prop :=
  ∃ ds rest, IsNumeral 16 ds ∧ ds.length = i ∧ utf8 text = ds.map byte ++ b :: rest ∧
    ∀ c, digitValue c < 16 → byte c ≠ b

variable {bs d : Bytes} {b : UInt8} {c : Char} {ds : List Char} {i : Nat} {text : String}

/-! Digits of bytes -/

theorem digitsOf_cons (b : UInt8) (bs : Bytes) :
    digitsOf (b :: bs) = hexDigit (b.toNat / 16) :: hexDigit (b.toNat % 16) :: digitsOf bs := rfl

theorem length_digitsOf (bs : Bytes) : (digitsOf bs).length = 2 * bs.length := by
  induction bs with
  | nil => rfl
  | cons b bs ih =>
    rw [digitsOf_cons, List.length_cons, List.length_cons, ih, List.length_cons]
    omega

theorem hexDigit_mem (n : Nat) (h : n < 16) : hexDigit n ∈ digits := by
  revert n
  decide

theorem digitValue_hexDigit (n : Nat) (h : n < 16) : digitValue (hexDigit n) = n := by
  revert n
  decide

theorem digitsOf_subset (bs : Bytes) : ∀ c ∈ digitsOf bs, c ∈ digits := by
  intro c hc
  obtain ⟨b, -, hc⟩ := List.mem_flatMap.1 hc
  have hb := b.toNat_lt
  rcases List.mem_pair.1 hc with rfl | rfl
  · exact hexDigit_mem _ (by omega)
  · exact hexDigit_mem _ (by omega)

theorem numberFrom_digitsOf (bs : Bytes) (n : Nat) :
    numberFrom 16 n (digitsOf bs) = n * 256 ^ bs.length + bs.toNat := by
  induction bs generalizing n with
  | nil => rw [List.length_nil, pow_zero, Nat.mul_one]; rfl
  | cons b bs ih =>
    have hb := b.toNat_lt
    have hhigh : digitValue (hexDigit (b.toNat / 16)) = b.toNat / 16 := digitValue_hexDigit _ (by omega)
    have hlow : digitValue (hexDigit (b.toNat % 16)) = b.toNat % 16 := digitValue_hexDigit _ (by omega)
    have hbyte : (n * 16 + b.toNat / 16) * 16 + b.toNat % 16 = n * 256 + b.toNat := by omega
    rw [digitsOf_cons, numberFrom, List.foldl_cons, List.foldl_cons, hhigh, hlow, hbyte, ← numberFrom, ih,
      Bytes.toNat_cons, List.length_cons, pow_succ]
    ring

theorem number_digitsOf (bs : Bytes) : number 16 (digitsOf bs) = bs.toNat := by
  rw [number, numberFrom_digitsOf, Nat.zero_mul, Nat.zero_add]

/-! Reading -/

theorem value?_byte (h : c.toNat < 128) :
    value? (byte c) = if digitValue c < 16 then some (UInt8.ofNat (digitValue c)) else none := by
  refine forall_ascii h ?_
  decide +kernel

theorem toNat_lt_of_value? {b : UInt8} (h : (value? b).isSome) : b.toNat < 128 := by
  have hbytes : ∀ n < 256, (value? (UInt8.ofNat n)).isSome → n < 128 := by
    decide +kernel
  rw [← UInt8.ofNat_toNat (x := b)] at h
  exact hbytes _ b.toNat_lt h

theorem firstInvalid?_eq_none (start : Nat) : firstInvalid? start d = none ↔ ∀ b ∈ d, (value? b).isSome := by
  induction d generalizing start with
  | nil => exact iff_of_true rfl nofun
  | cons b rest ih =>
    rw [firstInvalid?, List.forall_mem_cons, ← ih (start + 1)]
    cases hb : (value? b).isSome with
    | true => simp
    | false => simp

theorem firstInvalid?_append {good : Bytes} (h : ∀ x ∈ good, (value? x).isSome) (start : Nat) :
    firstInvalid? start (good ++ d) = firstInvalid? (start + good.length) d := by
  induction good generalizing start with
  | nil => rfl
  | cons x good ih =>
    obtain ⟨hx, hgood⟩ := List.forall_mem_cons.1 h
    rw [List.cons_append, firstInvalid?, if_pos hx, ih hgood, List.length_cons, Nat.add_right_comm, Nat.add_assoc]

/-- The byte that is found has only digits before it. -/
theorem firstInvalid?_eq_some (start : Nat) :
    firstInvalid? start d = some (b, i) ↔
      ∃ good bad, d = good ++ b :: bad ∧ start + good.length = i ∧ (∀ x ∈ good, (value? x).isSome) ∧
        ¬(value? b).isSome := by
  constructor
  · intro h
    induction d generalizing start with
    | nil => cases h
    | cons x rest ih =>
      rw [firstInvalid?] at h
      split at h
      · rename_i hx
        obtain ⟨good, bad, rfl, hi, hgood, hb⟩ := ih (start + 1) h
        refine ⟨x :: good, bad, rfl, ?_, List.forall_mem_cons.2 ⟨hx, hgood⟩, hb⟩
        rw [List.length_cons]
        omega
      · rename_i hx
        cases h
        exact ⟨[], rest, rfl, rfl, nofun, hx⟩
  · rintro ⟨good, bad, rfl, rfl, hgood, hb⟩
    rw [firstInvalid?_append hgood, firstInvalid?, if_neg hb]

theorem decode_eq_oddLength : decode d = .error .oddLength ↔ d.length % 2 = 1 := by
  unfold decode
  split
  · rename_i hodd
    exact iff_of_true rfl hodd
  · rename_i heven
    refine iff_of_false ?_ heven
    split <;> nofun

theorem decode_eq_invalidByte :
    decode d = .error (.invalidByte b i) ↔ d.length % 2 = 0 ∧ firstInvalid? 0 d = some (b, i) := by
  unfold decode
  split
  · exact iff_of_false nofun fun h => by omega
  · rename_i heven
    rw [and_iff_right (by omega)]
    split
    · rename_i hinvalid
      rw [hinvalid, Except.error.injEq, Error.invalidByte.injEq, Option.some.injEq, Prod.mk.injEq]
    · rename_i hvalid
      exact iff_of_false nofun fun h => by rw [hvalid] at h; cases h

theorem decode_eq_ok :
    decode d = .ok bs ↔ d.length % 2 = 0 ∧ (∀ b ∈ d, (value? b).isSome) ∧ pairs d = bs := by
  unfold decode
  rw [← firstInvalid?_eq_none 0]
  split
  · rename_i hodd
    exact iff_of_false nofun fun h => by omega
  · rename_i heven
    split
    · rename_i hinvalid
      exact iff_of_false nofun fun h => by rw [hinvalid] at h; exact absurd h.2.1 nofun
    · rename_i hvalid
      rw [Except.ok.injEq]
      exact ⟨fun h => ⟨by omega, hvalid, h⟩, fun h => h.2.2⟩

theorem value?_isSome_byte (h : digitValue c < 16) : (value? (byte c)).isSome := by
  rw [value?_byte (toNat_lt_of_digit h), if_pos h, Option.isSome_some]

theorem forall_value?_byte (h : IsNumeral 16 ds) : ∀ b ∈ ds.map byte, (value? b).isSome := by
  intro b hb
  obtain ⟨c, hc, rfl⟩ := List.mem_map.1 hb
  exact value?_isSome_byte (h c hc)

/-- Bytes that are digits are those of hex digits. -/
theorem exists_numeral (h : ∀ b ∈ d, (value? b).isSome) : ∃ ds, IsNumeral 16 ds ∧ ds.map byte = d := by
  obtain ⟨ds, hascii, rfl⟩ := exists_ascii fun b hb => toNat_lt_of_value? (h b hb)
  refine ⟨ds, fun c hc => ?_, rfl⟩
  have hsome := h (byte c) (List.mem_map_of_mem hc)
  rw [value?_byte (hascii c hc)] at hsome
  by_contra hlarge
  rw [if_neg hlarge] at hsome
  cases hsome

theorem value?_isSome_iff : (value? b).isSome ↔ ∃ c, digitValue c < 16 ∧ byte c = b := by
  constructor
  · intro h
    obtain ⟨ds, hds, hbytes⟩ := exists_numeral (List.forall_mem_singleton.2 h)
    obtain ⟨c, rfl, hb⟩ := List.map_eq_singleton_iff.1 hbytes
    exact ⟨c, hds c (List.mem_singleton_self c), hb⟩
  · rintro ⟨c, hc, rfl⟩
    exact value?_isSome_byte hc

theorem digitsOf_pairs (h : IsNumeral 16 ds) (heven : ds.length % 2 = 0) :
    digitsOf (pairs (ds.map byte)) = ds.map Char.toLower := by
  induction ds using List.twoStepInduction with
  | nil => rfl
  | singleton c => cases heven
  | cons_cons c c' ds ih _ =>
    rw [IsNumeral, List.forall_mem_cons, List.forall_mem_cons] at h
    obtain ⟨hc, hc', hds⟩ := h
    have hpair : ((value? (byte c)).getD 0 * 16 + (value? (byte c')).getD 0).toNat =
        digitValue c * 16 + digitValue c' := by
      rw [value?_byte (toNat_lt_of_digit hc), if_pos hc, value?_byte (toNat_lt_of_digit hc'), if_pos hc']
      simp only [Option.getD_some, UInt8.toNat_add, UInt8.toNat_mul, UInt8.toNat_ofNat', UInt8.toNat_ofNat]
      omega
    have hrest : ds.length % 2 = 0 := by
      rw [List.length_cons, List.length_cons] at heven
      omega
    have hhigh : (digitValue c * 16 + digitValue c') / 16 = digitValue c := by omega
    have hlow : (digitValue c * 16 + digitValue c') % 16 = digitValue c' := by omega
    rw [List.map_cons, List.map_cons, pairs, digitsOf_cons, hpair, hhigh, hlow, hexDigit_digitValue hc,
      hexDigit_digitValue hc', ih hds hrest, List.map_cons, List.map_cons]

theorem digitsOf_injective : Function.Injective digitsOf := by
  intro a b h
  have hlength : 2 * a.length = 2 * b.length := by rw [← length_digitsOf, ← length_digitsOf, h]
  have hnumber : a.toNat = b.toNat := by rw [← number_digitsOf, ← number_digitsOf, h]
  rw [← Bytes.ofNat_toNat a, ← Bytes.ofNat_toNat b, hnumber, Nat.eq_of_mul_eq_mul_left Nat.two_pos hlength]

/-- Digits of either case are read as the bytes that are written with them. -/
theorem decode_map_byte (h : IsNumeral 16 ds) : decode (ds.map byte) = .ok bs ↔ digitsOf bs = ds.map Char.toLower := by
  rw [decode_eq_ok, List.length_map]
  constructor
  · rintro ⟨heven, -, rfl⟩
    exact digitsOf_pairs h heven
  · intro hbs
    have heven : ds.length % 2 = 0 := by
      rw [← List.length_map (f := Char.toLower), ← hbs, length_digitsOf, Nat.mul_mod_right]
    exact ⟨heven, forall_value?_byte h, digitsOf_injective ((digitsOf_pairs h heven).trans hbs.symm)⟩

/-! Marks -/

theorem utf8_eq_of_stripMark (t : Bytes) : ∃ mark ∈ ["", "0x", "0X"], t = utf8 mark ++ stripMark t := by
  unfold stripMark
  split
  · exact ⟨"0x", by simp, rfl⟩
  · exact ⟨"0X", by simp, rfl⟩
  · exact ⟨"", by simp, rfl⟩

/-- The letter of a mark is no digit, so a mark is not taken for one. -/
theorem stripMark_append {mark : String} (hmark : mark ∈ ["", "0x", "0X"]) (h : ∀ b ∈ d, (value? b).isSome) :
    stripMark (utf8 mark ++ d) = d := by
  have hlower : ¬(value? 0x78).isSome := by decide
  have hupper : ¬(value? 0x58).isSome := by decide
  simp only [List.mem_cons, List.not_mem_nil, or_false] at hmark
  rcases hmark with rfl | rfl | rfl
  · change stripMark d = d
    unfold stripMark
    split
    · exact absurd (h 0x78 (by simp)) hlower
    · exact absurd (h 0x58 (by simp)) hupper
    · rfl
  · rfl
  · rfl

theorem afterMark_append {mark : String} (hmark : mark ∈ ["0x", "0X"]) (rest : String) :
    afterMark (mark ++ rest) = rest := by
  unfold afterMark
  rw [String.toList_append]
  rcases List.mem_pair.1 hmark with rfl | rfl
  · exact String.ofList_toList
  · exact String.ofList_toList

/-- The bytes behind a mark are those of the characters behind it. -/
theorem stripMark_utf8 (text : String) : stripMark (utf8 text) = utf8 (afterMark text) := by
  have hlower : IsAscii ['0', 'x'] := by simp [IsAscii]
  have hupper : IsAscii ['0', 'X'] := by simp [IsAscii]
  unfold stripMark
  split
  · rename_i hbytes
    obtain ⟨rest, rfl, hrest⟩ := exists_append_of_utf8 hlower hbytes
    exact hrest.symm.trans (congrArg utf8 (afterMark_append (by simp) rest).symm)
  · rename_i hbytes
    obtain ⟨rest, rfl, hrest⟩ := exists_append_of_utf8 hupper hbytes
    exact hrest.symm.trans (congrArg utf8 (afterMark_append (by simp) rest).symm)
  · rename_i hnoLower hnoUpper
    unfold afterMark
    split
    · rename_i cs hchars
      rw [← String.ofList_toList (s := text), hchars, utf8_ofList_cons, utf8_ofList_cons] at hnoLower
      exact absurd rfl (hnoLower (utf8 (String.ofList cs)))
    · rename_i cs hchars
      rw [← String.ofList_toList (s := text), hchars, utf8_ofList_cons, utf8_ofList_cons] at hnoUpper
      exact absurd rfl (hnoUpper (utf8 (String.ofList cs)))
    · rfl

theorem utf8_of_spells (h : IsNumeral 16 ds) (mark : String) :
    utf8 (mark ++ String.ofList ds) = utf8 mark ++ ds.map byte := by
  rw [utf8_append, utf8_ofList (h.isAscii le_rfl)]

/-- The texts that are read as given bytes are the digits of these, in either case and behind a mark or not. -/
theorem parse_eq_ok : parse text = .ok bs ↔ ∃ ds, Spells text ds ∧ digitsOf bs = ds.map Char.toLower := by
  unfold parse
  constructor
  · intro h
    obtain ⟨-, hdigits, -⟩ := decode_eq_ok.1 h
    obtain ⟨mark, hmark, htext⟩ := utf8_eq_of_stripMark (utf8 text)
    obtain ⟨ds, hds, hbytes⟩ := exists_numeral hdigits
    rw [← hbytes] at h
    refine ⟨ds, ⟨hds, mark, hmark, ?_⟩, (decode_map_byte hds).1 h⟩
    rw [← utf8_inj, utf8_of_spells hds, hbytes]
    exact htext
  · rintro ⟨ds, ⟨hds, mark, hmark, rfl⟩, hbs⟩
    rw [utf8_of_spells hds, stripMark_append hmark (forall_value?_byte hds)]
    exact (decode_map_byte hds).2 hbs

/-- Behind the mark the digits are all there is. -/
theorem afterMark_of_spells (h : Spells text ds) : afterMark text = String.ofList ds := by
  obtain ⟨hds, mark, hmark, rfl⟩ := h
  rw [← utf8_inj, ← stripMark_utf8, utf8_of_spells hds, stripMark_append hmark (forall_value?_byte hds),
    utf8_ofList (hds.isAscii le_rfl)]

/-! Refusals -/

theorem parse_eq_oddLength : parse text = .error .oddLength ↔ (utf8 (afterMark text)).length % 2 = 1 := by
  rw [parse, stripMark_utf8, decode_eq_oddLength]

theorem firstInvalid?_utf8 : firstInvalid? 0 (utf8 text) = some (b, i) ↔ FirstInvalid text b i := by
  rw [firstInvalid?_eq_some, value?_isSome_iff]
  constructor
  · rintro ⟨good, rest, htext, rfl, hgood, hb⟩
    obtain ⟨ds, hds, rfl⟩ := exists_numeral hgood
    exact ⟨ds, rest, hds, by rw [Nat.zero_add, List.length_map], htext, fun c hc hbyte => hb ⟨c, hc, hbyte⟩⟩
  · rintro ⟨ds, rest, hds, rfl, htext, hb⟩
    exact ⟨ds.map byte, rest, htext, by rw [Nat.zero_add, List.length_map], forall_value?_byte hds,
      fun ⟨c, hc, hbyte⟩ => hb c hc hbyte⟩

theorem parse_eq_invalidByte :
    parse text = .error (.invalidByte b i) ↔
      (utf8 (afterMark text)).length % 2 = 0 ∧ FirstInvalid (afterMark text) b i := by
  rw [parse, stripMark_utf8, decode_eq_invalidByte, firstInvalid?_utf8]

theorem head?_append {s : String} (h : s.toList.head? = some c) (t : String) : (s ++ t).toList.head? = some c := by
  rw [String.toList_append, List.head?_append, h, Option.some_or]

theorem message_eq_odd {e : Error} : e.message = "Odd number of digits" ↔ e = .oddLength := by
  cases e with
  | oddLength => exact iff_of_true rfl rfl
  | invalidByte b i =>
    refine iff_of_false (fun h => ?_) nofun
    have hfirst : (Error.invalidByte b i).message.toList.head? = some 'I' := by
      unfold Error.message
      exact head?_append (head?_append (head?_append rfl _) _) _
    rw [h] at hfirst
    cases hfirst

/-! Writing -/

theorem isNumeral_digitsOf (bs : Bytes) : IsNumeral 16 (digitsOf bs) := by
  have hdigits : ∀ c ∈ digits, digitValue c < 16 := forall_digits (by decide)
  exact fun c hc => hdigits c (digitsOf_subset bs c hc)

theorem map_toLower_digitsOf (bs : Bytes) : (digitsOf bs).map Char.toLower = digitsOf bs := by
  have hdigits : ∀ c ∈ digits, c.toLower = c := forall_digits (by decide)
  exact (List.map_congr_left fun c hc => hdigits c (digitsOf_subset bs c hc)).trans (List.map_id _)

theorem spells_encode (bs : Bytes) : Spells (encode bs) (digitsOf bs) :=
  ⟨isNumeral_digitsOf bs, "", by simp, String.empty_append.symm⟩

theorem parse_encode (bs : Bytes) : parse (encode bs) = .ok bs :=
  parse_eq_ok.2 ⟨digitsOf bs, spells_encode bs, (map_toLower_digitsOf bs).symm⟩

/-- An even number of digits writes half as many bytes, of the same number. -/
theorem parse_of_spells (h : Spells text ds) (heven : ds.length % 2 = 0) :
    ∃ bs, parse text = .ok bs ∧ ds.length = 2 * bs.length ∧ bs.toNat = number 16 ds := by
  have hdigits := digitsOf_pairs h.1 heven
  refine ⟨_, parse_eq_ok.2 ⟨ds, h, hdigits⟩, ?_, ?_⟩
  · rw [← length_digitsOf, hdigits, List.length_map]
  · rw [← number_digitsOf, hdigits, number_map_toLower h.1]

theorem spells_of_parse (h : parse text = .ok bs) : ∃ ds, Spells text ds ∧ ds.length = 2 * bs.length := by
  obtain ⟨ds, hspells, hdigits⟩ := parse_eq_ok.1 h
  refine ⟨ds, hspells, ?_⟩
  rw [← length_digitsOf, hdigits, List.length_map]

/-- The texts of any `n` bytes. -/
theorem exists_parse_iff {n : Nat} :
    (∃ bs, parse text = .ok bs ∧ bs.length = n) ↔ ∃ ds, Spells text ds ∧ ds.length = 2 * n := by
  constructor
  · rintro ⟨bs, hparse, rfl⟩
    exact spells_of_parse hparse
  · rintro ⟨ds, hspells, hlength⟩
    obtain ⟨bs, hparse, hbytes, -⟩ := parse_of_spells hspells (by omega)
    exact ⟨bs, hparse, by omega⟩

end Wallet.Hex
