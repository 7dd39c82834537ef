import Wallet.Proofs.Rlp.Failure

/-! Numbers of different widths. A number is written as its shortest run of bytes and read from nothing else, so
the type it is read in decides only how large it may be (`number_eq_ok`). Two reads of one item that succeed give
one number, and a type that is too narrow for the item says how many bytes the number has
(`number_of_too_large`). Main statement: `widths_agree`. -/

namespace Wallet.Rlp

/-- The types of number that are written and read as one string item. -/
inductive NumberType
  | uint8
  | uint16
  | uint32
  | uint64
  | word
  deriving DecidableEq, Repr

namespace NumberType

/-- How many bytes the numbers of a type have at most. -/
def width : NumberType → Nat
  | uint8 => 1
  | uint16 => 2
  | uint32 => 4
  | uint64 => 8
  | word => 32

def primitive : NumberType → Primitive
  | uint8 => .uint8
  | uint16 => .uint16
  | uint32 => .uint32
  | uint64 => .uint64
  | word => .word

def toNat : (a : NumberType) → a.primitive.Value → Nat
  | uint8, (n : UInt8) => n.toNat
  | uint16, (n : UInt16) => n.toNat
  | uint32, (n : UInt32) => n.toNat
  | uint64, (n : UInt64) => n.toNat
  | word, (n : Word) => n.toNat

/-- Reads a value of a type, as the number that it is. -/
def number (a : NumberType) : Decoder Nat := a.toNat <$> a.primitive.read

variable {a b : NumberType} {s t : Bytes} {n : Nat}

theorem width_le (a : NumberType) : a.width ≤ 32 := by
  cases a <;> decide

theorem toNat_lt (a : NumberType) (v : a.primitive.Value) : a.toNat v < 256 ^ a.width := by
  cases a with
  | uint8 => exact UInt8.toNat_lt v
  | uint16 => exact UInt16.toNat_lt v
  | uint32 => exact UInt32.toNat_lt v
  | uint64 => exact UInt64.toNat_lt v
  | word => exact Word.toNat_lt_pow v

theorem exists_toNat_eq (h : n < 256 ^ a.width) : ∃ v, a.toNat v = n := by
  cases a with
  | uint8 => exact ⟨UInt8.ofNat n, UInt8.toNat_ofNat_of_lt' h⟩
  | uint16 => exact ⟨UInt16.ofNat n, UInt16.toNat_ofNat_of_lt' h⟩
  | uint32 => exact ⟨UInt32.ofNat n, UInt32.toNat_ofNat_of_lt' h⟩
  | uint64 => exact ⟨UInt64.ofNat n, UInt64.toNat_ofNat_of_lt' h⟩
  | word => exact ⟨BitVec.ofNat 256 n, (BitVec.toNat_ofNat n 256).trans (Nat.mod_eq_of_lt h)⟩

theorem payload_eq (a : NumberType) (v : a.primitive.Value) :
    a.primitive.payload v = Bytes.strip (Bytes.ofNat a.width (a.toNat v)) := by
  cases a <;> rfl

theorem number_eq_ok :
    a.number s = .ok n t ↔ n < 256 ^ a.width ∧ s = encodeString (Bytes.strip (Bytes.ofNat a.width n)) ++ t := by
  simp only [number, Decoder.map_eq_ok, Primitive.read_eq_ok, payload_eq]
  constructor
  · rintro ⟨v, ⟨rfl, -⟩, rfl⟩
    exact ⟨a.toNat_lt v, rfl⟩
  · rintro ⟨hlt, rfl⟩
    obtain ⟨v, rfl⟩ := exists_toNat_eq hlt
    exact ⟨v, ⟨rfl, length_strip_ofNat_lt a.width_le _⟩, rfl⟩

/-- A narrower type reads what a wider one does, as long as the number fits. -/
theorem number_narrow (h : a.width ≤ b.width) :
    a.number s = .ok n t ↔ b.number s = .ok n t ∧ n < 256 ^ a.width := by
  rw [number_eq_ok, number_eq_ok]
  constructor
  · rintro ⟨hlt, rfl⟩
    have hlt' : n < 256 ^ b.width := hlt.trans_le (Nat.pow_le_pow_right (by decide) h)
    rw [Bytes.strip_ofNat_width hlt hlt']
    exact ⟨⟨hlt', rfl⟩, hlt⟩
  · rintro ⟨⟨hlt', rfl⟩, hlt⟩
    rw [Bytes.strip_ofNat_width hlt hlt']
    exact ⟨hlt, rfl⟩

theorem number_of_error {e : Error} (h : Decoder.digits a.width s = .error e t) : a.number s = .error e s := by
  refine Decoder.map_of_error ?_ _
  cases a with
  | uint8 => exact Decoder.atomically_of_error (Decoder.map_of_error (Decoder.unsigned_of_error h) _)
  | uint16 => exact Decoder.atomically_of_error (Decoder.map_of_error (Decoder.unsigned_of_error h) _)
  | uint32 => exact Decoder.atomically_of_error (Decoder.map_of_error (Decoder.unsigned_of_error h) _)
  | uint64 => exact Decoder.atomically_of_error (Decoder.unsigned_of_error h)
  | word => exact Decoder.atomically_of_error (Decoder.word_of_error h)

/-- A number that a wider type reads is refused by a type that it does not fit, which has consumed nothing. -/
theorem number_of_too_large (h : b.number s = .ok n t) (hlarge : 256 ^ a.width ≤ n) :
    a.number s = .error (.tooWide (Nat.digits 256 n).length a.width) s := by
  obtain ⟨hlt, rfl⟩ := number_eq_ok.1 h
  have hlength : (Bytes.strip (Bytes.ofNat b.width n)).length = (Nat.digits 256 n).length := by
    rw [Bytes.length_eq_length_digits (Bytes.head?_strip _), Bytes.toNat_strip, Bytes.toNat_ofNat hlt]
  have hwide : a.width < (Bytes.strip (Bytes.ofNat b.width n)).length := by
    rw [hlength]
    exact (Nat.lt_digits_length_iff (by decide) n).2 hlarge
  rw [← hlength]
  have hpayload := Decoder.stringPayload_encodeString t (length_strip_ofNat_lt b.width_le n)
  exact number_of_error (Decoder.digits_of_wide hpayload hwide)

/-- Equal numbers are written alike. -/
theorem write_eq (x : a.primitive.Value) (y : b.primitive.Value) (h : b.toNat y = a.toNat x) (e : Encoder) :
    b.primitive.write y e = a.primitive.write x e := by
  have hpayload : b.primitive.payload y = a.primitive.payload x := by
    rw [payload_eq, payload_eq, h]
    exact Bytes.strip_ofNat_width (h ▸ b.toNat_lt y) (a.toNat_lt x)
  have houtput : (b.primitive.write y e).output = (a.primitive.write x e).output := by
    rw [Primitive.output_write, Primitive.output_write, hpayload]
  exact congrArg Encoder.mk houtput

/-- Of two types the narrower one reads an item exactly if the wider one does and the number fits, and then both
read the same number and leave the same rest; of a larger number it says how many bytes that has. A value of the
narrower type has its equal in the wider one, which is written as the same bytes. -/
theorem widths_agree (a b : NumberType) (h : a.width < b.width) :
    (∀ s n t, a.number s = .ok n t ↔ b.number s = .ok n t ∧ n < 256 ^ a.width) ∧
    (∀ s n t, b.number s = .ok n t → 256 ^ a.width ≤ n →
      a.number s = .error (.tooWide (Nat.digits 256 n).length a.width) s) ∧
    ∀ x : a.primitive.Value, (∃ y : b.primitive.Value, b.toNat y = a.toNat x) ∧
      ∀ y : b.primitive.Value, b.toNat y = a.toNat x → ∀ e, b.primitive.write y e = a.primitive.write x e := by
  refine ⟨fun s n t => number_narrow h.le, fun s n t => number_of_too_large, fun x => ⟨?_, write_eq x⟩⟩
  exact exists_toNat_eq ((a.toNat_lt x).trans (Nat.pow_lt_pow_right (by decide) h))

/-- The least number of nine bytes is a word, but does not fit the type of eight bytes; the greatest of eight does. -/
theorem uint64_and_word_agree :
    uint64.width < word.width ∧
      uint64.number [0x89, 1, 0, 0, 0, 0, 0, 0, 0, 0, 0x05] =
        .error (.tooWide 9 8) [0x89, 1, 0, 0, 0, 0, 0, 0, 0, 0, 0x05] ∧
      uint64.number [0x88, 0xff, 0xff, 0xff, 0xff, 0xff, 0xff, 0xff, 0xff, 0x05] = .ok (2 ^ 64 - 1) [0x05] := by
  have hwidth : uint64.width < word.width := by decide
  obtain ⟨hnarrow, hlarge, -⟩ := widths_agree uint64 word hwidth
  have hdigits : (Nat.digits 256 (2 ^ 64)).length = 9 := by norm_num
  refine ⟨hwidth, ?_, (hnarrow _ _ _).2 ⟨rfl, by decide⟩⟩
  rw [hlarge _ (2 ^ 64) [0x05] rfl (by decide), hdigits]
  rfl

end NumberType
end Wallet.Rlp
