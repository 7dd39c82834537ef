import Wallet.Proofs.Rlp.Typed

/-! The values that one string item holds, each with its typed write and its typed read. All writes
go through one payload (`output_write`), and a read accepts that payload and nothing else, whatever
follows it (`read_eq_ok`). -/

namespace Wallet

theorem Text.ofUtf8?_eq_some {bs : Bytes} {s : String} : Text.ofUtf8? bs = some s ↔ bs = Text.utf8 s := by
  unfold Text.ofUtf8? Text.utf8 String.fromUTF8? String.toUTF8
  split
  · rename_i hvalid
    rw [Option.some.injEq, ← String.toByteArray_inj]
    constructor
    · intro h
      rw [← h]
      rfl
    · rintro rfl
      rfl
  · rename_i hinvalid
    refine iff_of_false nofun ?_
    rintro rfl
    exact hinvalid s.isValidUTF8

namespace Rlp

/-- The types of value that are written and read as one string item. -/
inductive Primitive
  | uint8
  | uint16
  | uint32
  | uint64
  | word
  | bytes
  | array (size : Nat)
  | text
  | address
  deriving DecidableEq, Repr

namespace Primitive

def Value : Primitive → Type
  | uint8 => UInt8
  | uint16 => UInt16
  | uint32 => UInt32
  | uint64 => UInt64
  | word => Word
  | bytes => Bytes
  | array size => Vector UInt8 size
  | text => String
  | address => Address

/-- The write of a value; a byte array is written as the string of its bytes. -/
def write : (p : Primitive) → p.Value → Encoder → Encoder
  | uint8, (n : UInt8), e => e.write n
  | uint16, (n : UInt16), e => e.write n
  | uint32, (n : UInt32), e => e.write n
  | uint64, (n : UInt64), e => e.write n
  | word, (n : Word), e => e.write n
  | bytes, (bs : Bytes), e => e.write bs
  | array _, v, e => e.write (Vector.toList v)
  | text, (s : String), e => e.write s
  | address, (a : Address), e => e.write a

def read : (p : Primitive) → Decoder p.Value
  | uint8 => Decoder.read UInt8
  | uint16 => Decoder.read UInt16
  | uint32 => Decoder.read UInt32
  | uint64 => Decoder.read UInt64
  | word => Decoder.read Word
  | bytes => Decoder.bytes
  | array size => Decoder.array size
  | text => Decoder.text
  | address => Decoder.read Address

/-- The payload of the item that holds a value. -/
def payload : (p : Primitive) → p.Value → Bytes
  | uint8, n => Bytes.strip (Bytes.ofNat 1 (UInt8.toNat n))
  | uint16, n => Bytes.strip (Bytes.ofNat 2 (UInt16.toNat n))
  | uint32, n => Bytes.strip (Bytes.ofNat 4 (UInt32.toNat n))
  | uint64, n => Bytes.strip (Bytes.ofNat 8 (UInt64.toNat n))
  | word, n => Bytes.strip (Word.toBytes n)
  | bytes, bs => bs
  | array _, v => Vector.toList v
  | text, s => Text.utf8 s
  | address, a => Address.toList a

end Primitive

namespace Decoder

variable {s t : Bytes}

theorem unsigned_eq_ok {width : Nat} (hwidth : width ≤ 8) {n : UInt64} :
    unsigned width s = .ok n t ↔
      s = encodeString (Bytes.strip (Bytes.ofNat width n.toNat)) ++ t ∧ n.toNat < 256 ^ width := by
  rw [unsigned, atomically_eq_ok, bind_eq_ok]
  simp only [digits_eq_ok, pure_eq_ok]
  constructor
  · intro h
    obtain ⟨d, _, ⟨rfl, -, hwide, hzero⟩, rfl, rfl⟩ := h
    rw [toNat_joined (hwide.trans hwidth), Bytes.strip_ofNat_toNat hzero hwide]
    exact ⟨rfl, (Bytes.toNat_lt d).trans_le (Nat.pow_le_pow_right (by decide) hwide)⟩
  · intro h
    obtain ⟨rfl, hlt⟩ := h
    have hle := Bytes.length_strip_ofNat_le width n.toNat
    have hjoined : joined (Bytes.strip (Bytes.ofNat width n.toNat)) = n := by
      rw [← UInt64.toNat_inj, toNat_joined (hle.trans hwidth), Bytes.toNat_strip, Bytes.toNat_ofNat hlt]
    have hsize := length_strip_ofNat_lt (hwidth.trans (by decide)) n.toNat
    exact ⟨_, t, ⟨rfl, hsize, hle, Bytes.head?_strip _⟩, hjoined, rfl⟩

/-- A number read in a machine word and then narrowed to a type that holds `width` bytes. -/
theorem narrowed_eq_ok {β : Type} {width : Nat} {narrow : UInt64 → β} {toNat : β → Nat} {b : β}
    (hwidth : width ≤ 8) (hlt : toNat b < 256 ^ width)
    (hnarrow : ∀ n, n.toNat < 256 ^ width → (narrow n = b ↔ n.toNat = toNat b)) :
    (narrow <$> unsigned width) s = .ok b t ↔
      s = encodeString (Bytes.strip (Bytes.ofNat width (toNat b))) ++ t := by
  simp only [map_eq_ok, unsigned_eq_ok hwidth]
  constructor
  · intro h
    obtain ⟨n, ⟨hs, hn⟩, hb⟩ := h
    rwa [← (hnarrow n hn).1 hb]
  · intro hs
    have hsize : toNat b < UInt64.size := hlt.trans_le (Nat.pow_le_pow_right (by decide) hwidth)
    have hn : (UInt64.ofNat (toNat b)).toNat = toNat b := UInt64.toNat_ofNat_of_lt' hsize
    refine ⟨UInt64.ofNat (toNat b), ?_, ?_⟩
    · rw [hn]
      exact ⟨hs, hlt⟩
    · exact (hnarrow _ (by rwa [hn])).2 hn

theorem read_uint8 {n : UInt8} :
    read UInt8 s = .ok n t ↔ s = encodeString (Bytes.strip (Bytes.ofNat 1 n.toNat)) ++ t := by
  refine atomically_eq_ok.trans (narrowed_eq_ok (by decide) n.toNat_lt fun m hm => ?_)
  rw [← UInt8.toNat_inj, UInt64.toNat_toUInt8]
  omega

theorem read_uint16 {n : UInt16} :
    read UInt16 s = .ok n t ↔ s = encodeString (Bytes.strip (Bytes.ofNat 2 n.toNat)) ++ t := by
  refine atomically_eq_ok.trans (narrowed_eq_ok (by decide) n.toNat_lt fun m hm => ?_)
  rw [← UInt16.toNat_inj, UInt64.toNat_toUInt16]
  omega

theorem read_uint32 {n : UInt32} :
    read UInt32 s = .ok n t ↔ s = encodeString (Bytes.strip (Bytes.ofNat 4 n.toNat)) ++ t := by
  refine atomically_eq_ok.trans (narrowed_eq_ok (by decide) n.toNat_lt fun m hm => ?_)
  rw [← UInt32.toNat_inj, UInt64.toNat_toUInt32]
  omega

theorem read_uint64 {n : UInt64} :
    read UInt64 s = .ok n t ↔ s = encodeString (Bytes.strip (Bytes.ofNat 8 n.toNat)) ++ t :=
  atomically_eq_ok.trans ((unsigned_eq_ok (by decide)).trans (and_iff_left n.toNat_lt))

theorem text_eq_ok {a : String} :
    text s = .ok a t ↔ s = encodeString (Text.utf8 a) ++ t ∧ (Text.utf8 a).length < UInt64.size := by
  rw [text, atomically_eq_ok, bind_eq_ok]
  simp only [stringPayload_eq_ok]
  constructor
  · intro h
    obtain ⟨p, r, ⟨rfl, hsize⟩, h⟩ := h
    cases htext : Text.ofUtf8? p with
    | none => rw [htext] at h; cases h
    | some b =>
      rw [htext] at h
      obtain ⟨rfl, rfl⟩ := pure_eq_ok.1 h
      rw [← Text.ofUtf8?_eq_some.1 htext]
      exact ⟨rfl, hsize⟩
  · intro h
    refine ⟨Text.utf8 a, t, h, ?_⟩
    rw [Text.ofUtf8?_eq_some.2 rfl]
    rfl

end Decoder

namespace Primitive

variable {p : Primitive} {v : p.Value} {s t : Bytes}

theorem output_write (p : Primitive) (v : p.Value) (e : Encoder) :
    (p.write v e).output = e.output ++ encodeString (p.payload v) := by
  cases p with
  | uint8 => exact congrArg (e.output ++ ·) (encodeDigits_eq _)
  | uint16 => exact congrArg (e.output ++ ·) (encodeDigits_eq _)
  | uint32 => exact congrArg (e.output ++ ·) (encodeDigits_eq _)
  | uint64 => exact congrArg (e.output ++ ·) (encodeDigits_eq _)
  | word => exact congrArg (e.output ++ ·) (encodeDigits_eq _)
  | bytes => rfl
  | array size => rfl
  | text => rfl
  | address => rfl

/-- A typed read takes the item that the typed write of its value gives, and no other. -/
theorem read_eq_ok :
    p.read s = .ok v t ↔ s = encodeString (p.payload v) ++ t ∧ (p.payload v).length < UInt64.size := by
  cases p with
  | uint8 => exact Decoder.read_uint8.trans (and_iff_left (length_strip_ofNat_lt (by decide) _)).symm
  | uint16 => exact Decoder.read_uint16.trans (and_iff_left (length_strip_ofNat_lt (by decide) _)).symm
  | uint32 => exact Decoder.read_uint32.trans (and_iff_left (length_strip_ofNat_lt (by decide) _)).symm
  | uint64 => exact Decoder.read_uint64.trans (and_iff_left (length_strip_ofNat_lt (by decide) _)).symm
  | word =>
    have hread (w : Word) :
        Decoder.read Word s = .ok w t ↔ s = encodeString (Bytes.strip w.toBytes) ++ t := by
      rw [Decoder.read_word, encode_word_eq]
    exact (hread v).trans (and_iff_left (length_strip_ofNat_lt (by decide) _)).symm
  | bytes => exact Decoder.bytes_eq_ok
  | array size => exact Decoder.array_eq_ok
  | text => exact Decoder.text_eq_ok
  | address =>
    have hlength : (Address.toList v).length = 20 := Vector.length_toList
    exact Decoder.read_address.trans (and_iff_left (hlength.trans_lt (by decide))).symm

end Primitive
end Rlp
end Wallet
