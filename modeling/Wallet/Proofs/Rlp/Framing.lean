import Wallet.Proofs.Rlp.Typed

/-! Items read off by their bytes alone. An item in front of other bytes determines its payload and
those bytes, even where the payload is so long that its length field leaves something out, as long as
what follows is short (`encodeString_append_inj`). A list that stands alone determines its payload
without any bound (`encodeList_inj`). -/

namespace Wallet.Rlp

theorem toNat_lengthField_mod (length : Nat) : Bytes.toNat (lengthField length) = length % 2 ^ 64 := by
  rw [lengthField, Bytes.toNat_strip, Bytes.toNat_ofNat_mod]
  rfl

section Headers

variable {short long : UInt8} {m n : Nat} {x y : Bytes}

/-- A header that holds its length and one with a length field are told apart by what follows them. -/
theorem header_short_ne_long (hgap : long.toNat = short.toNat + 55) (hm : m < longFrom)
    (hn : longFrom ≤ n) (hx : x.length < m + 2 ^ 32) (hy : n ≤ y.length) :
    header m short long ++ x ≠ header n short long ++ y := by
  intro h
  have hwidth := length_lengthField_le n
  rw [header_short hm, header_long hn, List.singleton_append, List.cons_append, List.cons.injEq] at h
  obtain ⟨hlead, hrest⟩ := h
  rw [longFrom] at hm hn
  rw [← UInt8.toNat_inj, UInt8.toNat_add, UInt8.toNat_add, UInt8.toNat_ofNat', UInt8.toNat_ofNat'] at hlead
  -- the lead bytes can only meet at 55 bytes, where the length field is empty
  have hempty : lengthField n = [] := List.length_eq_zero_iff.1 (by omega)
  have hmod := toNat_lengthField_mod n
  rw [hempty, Bytes.toNat_nil] at hmod
  rw [hempty, List.nil_append] at hrest
  rw [hrest] at hx
  omega

/-- Two headers in front of equally long inputs announce the same length. -/
theorem length_eq_of_header (hgap : long.toNat = short.toNat + 55) (hmx : m ≤ x.length)
    (hx : x.length < m + 2 ^ 32) (hny : n ≤ y.length) (hy : y.length < n + 2 ^ 32)
    (h : header m short long ++ x = header n short long ++ y) : m = n := by
  rcases Nat.lt_or_ge m longFrom with hm | hm
  · rcases Nat.lt_or_ge n longFrom with hn | hn
    · rw [header_short hm, header_short hn, List.singleton_append, List.singleton_append, List.cons.injEq] at h
      have hlead := h.1
      rw [longFrom] at hm hn
      rw [← UInt8.toNat_inj, UInt8.toNat_add, UInt8.toNat_add, UInt8.toNat_ofNat', UInt8.toNat_ofNat'] at hlead
      omega
    · exact absurd h (header_short_ne_long hgap hm hn hx hny)
  · rcases Nat.lt_or_ge n longFrom with hn | hn
    · exact absurd h.symm (header_short_ne_long hgap hn hm hy hmx)
    · have hwidth := length_lengthField_le m
      have hwidth' := length_lengthField_le n
      rw [header_long hm, header_long hn, List.cons_append, List.cons_append, List.cons.injEq] at h
      obtain ⟨hlead, hrest⟩ := h
      rw [← UInt8.toNat_inj, UInt8.toNat_add, UInt8.toNat_add, UInt8.toNat_ofNat', UInt8.toNat_ofNat'] at hlead
      obtain ⟨hfield, rfl⟩ := List.append_inj hrest (by omega)
      have hmod := congrArg Bytes.toNat hfield
      rw [toNat_lengthField_mod, toNat_lengthField_mod] at hmod
      omega

end Headers

variable {p q t u : Bytes}

/-- A payload behind its header, and what follows it, are determined together. -/
theorem framed_inj {short long : UInt8} (hgap : long.toNat = short.toNat + 55) (ht : t.length < 2 ^ 32)
    (hu : u.length < 2 ^ 32) (h : header p.length short long ++ (p ++ t) = header q.length short long ++ (q ++ u)) :
    p = q ∧ t = u := by
  have hp : (p ++ t).length = p.length + t.length := List.length_append
  have hq : (q ++ u).length = q.length + u.length := List.length_append
  have hlen : p.length = q.length :=
    length_eq_of_header hgap (by omega) (by omega) (by omega) (by omega) h
  rw [hlen] at h
  exact List.append_inj (List.append_cancel_left h) hlen

/-- A bare byte is no lead byte of a header. -/
theorem bare_ne_header (hbare : isBare p = true) {n : Nat} {y : Bytes} :
    p ++ t ≠ header n shortString longString ++ y := by
  obtain ⟨b, hb, rfl⟩ := isBare_eq_true.1 hbare
  have hshort : shortString.toNat = 0x80 := rfl
  have hlong : longString.toNat = 0xb7 := rfl
  intro h
  rcases Nat.lt_or_ge n longFrom with hn | hn
  · rw [header_short hn, List.singleton_append, List.singleton_append, List.cons.injEq] at h
    have hlead := h.1
    rw [longFrom] at hn
    rw [← UInt8.toNat_inj, UInt8.toNat_add, UInt8.toNat_ofNat'] at hlead
    omega
  · have hwidth := length_lengthField_le n
    rw [header_long hn, List.singleton_append, List.cons_append, List.cons.injEq] at h
    have hlead := h.1
    rw [← UInt8.toNat_inj, UInt8.toNat_add, UInt8.toNat_ofNat'] at hlead
    omega

theorem encodeString_append_inj (ht : t.length < 2 ^ 32) (hu : u.length < 2 ^ 32)
    (h : encodeString p ++ t = encodeString q ++ u) : p = q ∧ t = u := by
  cases hp : isBare p with
  | true =>
    rw [encodeString_of_isBare hp] at h
    cases hq : isBare q with
    | true =>
      rw [encodeString_of_isBare hq] at h
      obtain ⟨b, -, rfl⟩ := isBare_eq_true.1 hp
      obtain ⟨c, -, rfl⟩ := isBare_eq_true.1 hq
      exact List.append_inj h rfl
    | false =>
      rw [encodeString_of_not_isBare hq, List.append_assoc] at h
      exact absurd h (bare_ne_header hp)
  | false =>
    rw [encodeString_of_not_isBare hp, List.append_assoc] at h
    cases hq : isBare q with
    | true =>
      rw [encodeString_of_isBare hq] at h
      exact absurd h.symm (bare_ne_header hq)
    | false =>
      rw [encodeString_of_not_isBare hq, List.append_assoc] at h
      exact framed_inj rfl ht hu h

theorem encodeList_inj (h : encodeList p = encodeList q) : p = q := by
  have hframed : header p.length shortList longList ++ (p ++ []) =
      header q.length shortList longList ++ (q ++ []) := by
    rw [List.append_nil, List.append_nil]
    exact h
  exact (framed_inj rfl (by decide) (by decide) hframed).1

theorem length_encodeString_le (p : Bytes) : (encodeString p).length ≤ p.length + 9 := by
  have hwidth := length_lengthField_le p.length
  rw [encodeString]
  split
  · omega
  · rw [List.length_append]
    rcases Nat.lt_or_ge p.length longFrom with hlen | hlen
    · rw [header_short hlen, List.length_singleton]
      omega
    · rw [header_long hlen, List.length_cons]
      omega

theorem length_encode_word_le (w : Word) : (encode w).length ≤ 41 := by
  have hstrip : (Bytes.strip w.toBytes).length ≤ 32 := Bytes.length_strip_ofNat_le 32 w.toNat
  have hlength := length_encodeString_le (Bytes.strip w.toBytes)
  rw [encode_word_eq]
  omega

end Wallet.Rlp
