import Wallet.Proofs.Rlp.Failure

/-! Items that are cut short. An item has three parts, of which each tells how long the next one is: the lead
byte, a length field, the payload. A reader that finds only the first bytes of an item reports how much there
is of the part in which the cut lies (`shortage`); that the item would have been the encoding of its payload
is no matter then, since every other check comes behind the part that it is about. Main statements:
`stringPayload_cut`, `listPayload_cut`. -/

namespace Wallet.Rlp

/-- Bytes of the length field of an item with a payload of `length` bytes: what its header has behind the lead
byte. -/
def fieldWidth (length : Nat) : Nat := (header length shortString longString).length - 1

/-- The error of a reader that finds the first `present` bytes of an item and nothing behind them, where the
payload should have `length` bytes. -/
def shortage (length present : Nat) : Error :=
  if present = 0 then .endOfInput 0 1
  else if present ≤ fieldWidth length then .endOfInput (present - 1) (fieldWidth length)
  else .endOfInput (present - 1 - fieldWidth length) length

theorem shortage_field {length present : Nat} (h : present < fieldWidth length) :
    shortage length (present + 1) = .endOfInput present (fieldWidth length) := by
  rw [shortage, if_neg (by omega), if_pos (by omega), Nat.add_sub_cancel]

theorem shortage_payload (length present : Nat) :
    shortage length (fieldWidth length + present + 1) = .endOfInput present length := by
  rw [shortage, if_neg (by omega), if_neg (by omega)]
  congr 1
  omega

theorem fieldWidth_short {length : Nat} (h : length < longFrom) : fieldWidth length = 0 := by
  rw [fieldWidth, header_short h, List.length_singleton]

theorem fieldWidth_long {length : Nat} (h : longFrom ≤ length) :
    fieldWidth length = (lengthField length).length := by
  rw [fieldWidth, header_long h, List.length_cons, Nat.add_sub_cancel]

theorem exists_rest_of_prefix {p e : Bytes} (h : p <+: e) (hne : p ≠ e) : ∃ rest ≠ [], p ++ rest = e := by
  obtain ⟨rest, rfl⟩ := h
  refine ⟨rest, ?_, rfl⟩
  rintro rfl
  exact hne (List.append_nil p).symm

namespace Decoder

variable {q rest payload : Bytes}

theorem take_cut {n : UInt64} (h : q.length < n.toNat) : take n q = .error (.endOfInput q.length n.toNat) q := by
  unfold take
  simp only [List.length_take]
  rw [if_pos (by omega)]

theorem longLength_cut {w : UInt8} (hw : w.toNat ≤ 8) (h : q.length < w.toNat) :
    longLength w q = .error (.endOfInput q.length w.toNat) q := by
  have hnarrow : ¬8 < w := by
    rw [UInt8.lt_iff_toNat_lt]
    exact Nat.not_lt.2 hw
  have htake : take w.toUInt64 q = .error (.endOfInput q.length w.toNat) q := by
    rw [take_cut] <;> rw [UInt8.toNat_toUInt64]
    exact h
  rw [longLength, bind_of_ok (rejectIf_of_not hnarrow _ _)]
  exact bind_of_error htake _

/-- What is left of a lead byte without its base. -/
theorem toNat_lead_sub (base : UInt8) {n : Nat} (h : n < 256) : (base + UInt8.ofNat n - base).toNat = n := by
  have hbase := base.toNat_lt
  rw [UInt8.toNat_sub, UInt8.toNat_add, UInt8.toNat_ofNat']
  omega

theorem shortPayload_cut (base : UInt8) (hlen : payload.length < longFrom) (h : q ++ rest = payload)
    (hrest : rest ≠ []) :
    take (base + UInt8.ofNat payload.length - base).toUInt64 q = .error (shortage payload.length (q.length + 1)) q := by
  have hpos := List.length_pos_iff.2 hrest
  have hsum : q.length + rest.length = payload.length := by rw [← h, List.length_append]
  have hshort : payload.length < 256 := hlen.trans (by decide)
  have hpayload := shortage_payload payload.length q.length
  rw [fieldWidth_short hlen, Nat.zero_add] at hpayload
  rw [hpayload, take_cut] <;> rw [UInt8.toNat_toUInt64, toNat_lead_sub base hshort]
  omega

theorem longPayload_cut (base : UInt8) (hlen : longFrom ≤ payload.length) (hsize : payload.length < UInt64.size)
    (h : q ++ rest = lengthField payload.length ++ payload) (hrest : rest ≠ []) :
    ∃ t, (longLength (base + UInt8.ofNat (lengthField payload.length).length - base) >>= take) q =
      .error (shortage payload.length (q.length + 1)) t := by
  have hwidth := length_lengthField_le payload.length
  have hlead := toNat_lead_sub base (n := (lengthField payload.length).length) (by omega)
  rcases Nat.lt_or_ge q.length (lengthField payload.length).length with hcut | hwhole
  · -- the length field is cut
    refine ⟨q, bind_of_error ?_ _⟩
    rw [shortage_field (by rwa [fieldWidth_long hlen]), fieldWidth_long hlen, longLength_cut] <;> rw [hlead] <;>
      assumption
  · -- the length field is there, so it can be taken off both sides
    obtain ⟨part, rfl⟩ : lengthField payload.length <+: q :=
      List.prefix_of_prefix_length_le (List.prefix_append _ payload) ⟨rest, h⟩ hwhole
    rw [List.append_assoc, List.append_cancel_left_eq] at h
    have hpos := List.length_pos_iff.2 hrest
    have hsum : part.length + rest.length = payload.length := by rw [← h, List.length_append]
    have hn : (UInt64.ofNat payload.length).toNat = payload.length := UInt64.toNat_ofNat_of_lt' hsize
    have hfield : longLength (base + UInt8.ofNat (lengthField payload.length).length - base)
        (lengthField payload.length ++ part) = .ok (UInt64.ofNat payload.length) part := by
      rw [longLength_eq_ok, hn, hlead]
      exact ⟨hlen, rfl, rfl⟩
    refine ⟨part, ?_⟩
    rw [bind_of_ok hfield, take_cut (by omega), hn, List.length_append, ← fieldWidth_long hlen, shortage_payload]

/-- The first bytes of a string item, but not all of them, are no string item. -/
theorem stringPayload_cut {p : Bytes} (hsize : payload.length < UInt64.size) (h : p ++ rest = encodeString payload)
    (hrest : rest ≠ []) : ∃ t, stringPayload p = .error (shortage payload.length p.length) t := by
  cases p with
  | nil => exact ⟨[], rfl⟩
  | cons lead q =>
    cases hbare : isBare payload with
    | true =>
      -- a bare byte has no proper part but the empty one
      obtain ⟨b, -, rfl⟩ := isBare_eq_true.1 hbare
      rw [encodeString_of_isBare hbare, List.cons_append, List.cons.injEq, List.append_eq_nil_iff] at h
      exact absurd h.2.2 hrest
    | false =>
      rw [encodeString_of_not_isBare hbare] at h
      rcases Nat.lt_or_ge payload.length longFrom with hlen | hlen
      · rw [header_short hlen, List.singleton_append, List.cons_append, List.cons.injEq] at h
        obtain ⟨rfl, h⟩ := h
        have hne : payload.length ≠ 0 := by
          rw [← h, List.length_append]
          have := List.length_pos_iff.2 hrest
          omega
        have hk := (classify_short hlen).1
        rw [if_neg hne] at hk
        rw [stringPayload_cons, hk]
        exact ⟨q, bind_of_error (shortPayload_cut shortString hlen h hrest) _⟩
      · rw [header_long hlen, List.cons_append, List.cons_append, List.cons.injEq] at h
        obtain ⟨rfl, h⟩ := h
        rw [stringPayload_cons, (classify_long hlen hsize).1]
        exact longPayload_cut longString hlen hsize h hrest

/-- The first bytes of a list item, but not all of them, are no list item. -/
theorem listPayload_cut {p : Bytes} (hsize : payload.length < UInt64.size) (h : p ++ rest = encodeList payload)
    (hrest : rest ≠ []) : ∃ t, listPayload p = .error (shortage payload.length p.length) t := by
  cases p with
  | nil => exact ⟨[], rfl⟩
  | cons lead q =>
    rw [encodeList] at h
    rcases Nat.lt_or_ge payload.length longFrom with hlen | hlen
    · rw [header_short hlen, List.singleton_append, List.cons_append, List.cons.injEq] at h
      obtain ⟨rfl, h⟩ := h
      rw [listPayload_cons, (classify_short hlen).2]
      exact ⟨q, shortPayload_cut shortList hlen h hrest⟩
    · rw [header_long hlen, List.cons_append, List.cons_append, List.cons.injEq] at h
      obtain ⟨rfl, h⟩ := h
      rw [listPayload_cons, (classify_long hlen hsize).2]
      exact longPayload_cut longList hlen hsize h hrest

theorem list_cut {p : Bytes} (hsize : payload.length < UInt64.size) (h : p ++ rest = encodeList payload)
    (hrest : rest ≠ []) : list p = .error (shortage payload.length p.length) p := by
  obtain ⟨t, hcut⟩ := listPayload_cut hsize h hrest
  exact atomically_of_error hcut

end Decoder

theorem Primitive.read_cut {payload p rest : Bytes} (hsize : payload.length < UInt64.size)
    (h : p ++ rest = encodeString payload) (hrest : rest ≠ []) (op : Primitive) :
    op.read p = .error (shortage payload.length p.length) p := by
  obtain ⟨t, hcut⟩ := Decoder.stringPayload_cut hsize h hrest
  exact op.read_of_error hcut

end Wallet.Rlp
