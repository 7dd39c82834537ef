import Wallet.Proofs.Rlp.Canonical

/-! Typed reads: numbers, byte strings and addresses are read off exactly the bytes that writing them
gives, and a number has the same bytes in every type that holds it. -/

namespace Wallet.Rlp

theorem encodeString_ne_nil (p : Bytes) : encodeString p ≠ [] := by
  cases hbare : isBare p with
  | true =>
    obtain ⟨b, -, rfl⟩ := isBare_eq_true.1 hbare
    simp [encodeString_of_isBare hbare]
  | false =>
    rw [encodeString_of_not_isBare hbare, header]
    split <;> simp

theorem length_le_encodeString (p : Bytes) : p.length ≤ (encodeString p).length := by
  rw [encodeString]
  split <;> simp

theorem length_lt_encodeList (p : Bytes) : p.length < (encodeList p).length := by
  rw [encodeList, header]
  split <;> simp only [List.length_append, List.length_cons, List.length_nil] <;> omega

theorem length_strip_ofNat_lt {width : Nat} (h : width ≤ 32) (n : Nat) :
    (Bytes.strip (Bytes.ofNat width n)).length < UInt64.size :=
  calc
    (Bytes.strip (Bytes.ofNat width n)).length ≤ width := Bytes.length_strip_ofNat_le width n
    _ ≤ 32 := h
    _ < UInt64.size := by decide

theorem encodeDigits_eq (digits : Bytes) : encodeDigits digits = encodeString (Bytes.strip digits) := by
  rw [encodeDigits, Bytes.strip]

/-- A number is written alike in all widths that hold it. -/
theorem encodeDigits_ofNat_width {v w n : Nat} (hv : n < 256 ^ v) (hw : n < 256 ^ w) :
    encodeDigits (Bytes.ofNat v n) = encodeDigits (Bytes.ofNat w n) :=
  congrArg encodeString (Bytes.strip_ofNat_width hv hw)

theorem encode_word_eq (w : Word) : encode w = encodeString (Bytes.strip w.toBytes) :=
  encodeDigits_eq w.toBytes

theorem encode_word_ne_nil (w : Word) : encode w ≠ [] := by
  rw [encode_word_eq]
  exact encodeString_ne_nil _

theorem encode_uint64_eq (n : UInt64) : encode n = encode (BitVec.ofNat 256 n.toNat : Word) := by
  have hn : n.toNat < 256 ^ 8 := n.toNat_lt
  have hw : n.toNat < 2 ^ 256 := n.toNat_lt.trans (by decide)
  have hval : (BitVec.ofNat 256 n.toNat).toNat = n.toNat := by
    rw [BitVec.toNat_ofNat, Nat.mod_eq_of_lt hw]
  change encodeDigits (Bytes.ofNat 8 n.toNat) = encodeDigits (Bytes.ofNat 32 (BitVec.ofNat 256 n.toNat).toNat)
  rw [hval]
  exact encodeDigits_ofNat_width hn (hn.trans (by decide))

theorem encode_uint8_zero : encode (0 : UInt8) = encode (0 : Word) :=
  encodeDigits_ofNat_width (v := 1) (w := 32) (n := 0) (by decide) (by decide)

namespace Decoder

theorem map_eq_ok {α β : Type} {f : α → β} {x : Decoder α} {s t : Bytes} {b : β} :
    (f <$> x) s = .ok b t ↔ ∃ a, x s = .ok a t ∧ f a = b := by
  rw [← bind_pure_comp, bind_eq_ok]
  constructor
  · intro h
    obtain ⟨a, r, hx, h⟩ := h
    obtain ⟨rfl, rfl⟩ := pure_eq_ok.1 h
    exact ⟨a, hx, rfl⟩
  · intro h
    obtain ⟨a, hx, rfl⟩ := h
    exact ⟨a, t, hx, rfl⟩

theorem digits_eq_ok {capacity : Nat} {s t d : Bytes} :
    digits capacity s = .ok d t ↔
      s = encodeString d ++ t ∧ d.length < UInt64.size ∧ d.length ≤ capacity ∧ d.head? ≠ some 0 := by
  simp only [digits, bind_eq_ok, rejectIf_eq_ok, pure_eq_ok, stringPayload_eq_ok]
  constructor
  · intro h
    obtain ⟨_, _, ⟨rfl, hsize⟩, _, _, ⟨hwide, rfl⟩, _, _, ⟨hzero, rfl⟩, rfl, rfl⟩ := h
    exact ⟨rfl, hsize, Nat.le_of_not_lt hwide, hzero⟩
  · intro h
    obtain ⟨rfl, hsize, hwide, hzero⟩ := h
    exact ⟨d, t, ⟨rfl, hsize⟩, (), t, ⟨Nat.not_lt.2 hwide, rfl⟩, (), t, ⟨hzero, rfl⟩, rfl, rfl⟩

theorem word_eq_ok {s t : Bytes} {w : Word} : word s = .ok w t ↔ s = encode w ++ t := by
  rw [word, atomically_eq_ok, bind_eq_ok, encode_word_eq]
  simp only [digits_eq_ok, pure_eq_ok]
  constructor
  · intro h
    obtain ⟨d, _, ⟨rfl, -, hwide, hzero⟩, rfl, rfl⟩ := h
    rw [Word.toBytes, Word.toNat_ofBytes hwide, Bytes.strip_ofNat_toNat hzero hwide]
  · intro hs
    have hle : (Bytes.strip w.toBytes).length ≤ 32 := Bytes.length_strip_ofNat_le 32 w.toNat
    exact ⟨_, t, ⟨hs, length_strip_ofNat_lt le_rfl _, hle, Bytes.head?_strip _⟩, Word.ofBytes_strip w, rfl⟩

theorem array_eq_ok {n : Nat} {s t : Bytes} {v : Vector UInt8 n} :
    array n s = .ok v t ↔ s = encodeString v.toList ++ t ∧ v.toList.length < UInt64.size := by
  rw [array, atomically_eq_ok, bind_eq_ok]
  simp only [stringPayload_eq_ok]
  constructor
  · intro h
    obtain ⟨p, r, ⟨rfl, hsize⟩, h⟩ := h
    split at h
    · obtain ⟨rfl, rfl⟩ := pure_eq_ok.1 h
      rw [Bytes.toList_toVector]
      exact ⟨rfl, hsize⟩
    · cases h
  · intro h
    obtain ⟨rfl, hsize⟩ := h
    have hlen : v.toList.length = n := v.length_toList
    refine ⟨v.toList, t, ⟨rfl, hsize⟩, ?_⟩
    rw [dif_pos hlen]
    refine pure_eq_ok.2 ⟨?_, rfl⟩
    exact Vector.toArray_inj.1 (by simp [Bytes.toVector, Vector.toList])

theorem read_word {s t : Bytes} {w : Word} : read Word s = .ok w t ↔ s = encode w ++ t := by
  rw [read, atomically_eq_ok]
  exact word_eq_ok

theorem read_bytes {s t p : Bytes} :
    read Bytes s = .ok p t ↔ s = encode p ++ t ∧ p.length < UInt64.size := by
  rw [read, atomically_eq_ok]
  exact bytes_eq_ok

theorem read_address {s t : Bytes} {a : Address} : read Address s = .ok a t ↔ s = encode a ++ t := by
  rw [read, atomically_eq_ok]
  change (Address.mk <$> array 20) s = .ok a t ↔ s = encodeString a.toList ++ t
  simp only [map_eq_ok, array_eq_ok]
  constructor
  · intro h
    obtain ⟨v, ⟨rfl, -⟩, rfl⟩ := h
    rfl
  · rintro rfl
    have hlen : a.bytes.toList.length = 20 := a.bytes.length_toList
    exact ⟨a.bytes, ⟨rfl, hlen.trans_lt (by decide)⟩, rfl⟩

end Decoder
end Wallet.Rlp
