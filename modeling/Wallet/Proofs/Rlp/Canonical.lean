import Wallet.Address
import Wallet.Proofs.Rlp.Header

/-! Reading accepts what writing produces and nothing else. For a string and for a list one
equivalence says which inputs are read and what is left of them (`bytes_eq_ok`, `list_eq_ok`). -/

namespace Wallet.Rlp

open ItemKind (classify classify_eq_iff)

theorem isBare_eq_true {p : Bytes} : isBare p = true ↔ ∃ b : UInt8, b.toNat < 0x80 ∧ p = [b] := by
  match p with
  | [] => simp [isBare]
  | [b] => simp [isBare, shortString, UInt8.lt_iff_toNat_lt]
  | _ :: _ :: _ => simp [isBare]

theorem encodeString_of_isBare {p : Bytes} (h : isBare p = true) : encodeString p = p := if_pos h

theorem encodeString_of_not_isBare {p : Bytes} (h : isBare p = false) :
    encodeString p = header p.length shortString longString ++ p := by
  simp [encodeString, h]

theorem isBare_eq_false_of_length {p : Bytes} (h : longFrom ≤ p.length) : isBare p = false := by
  rw [← Bool.not_eq_true, isBare_eq_true]
  intro h
  obtain ⟨b, -, rfl⟩ := h
  simp [longFrom] at h

theorem classify_bare {b : UInt8} (h : b.toNat < 0x80) : classify b = .singleByte :=
  classify_eq_iff.2 ⟨Nat.zero_le _, Nat.le_of_lt_succ h⟩

/-- The lead byte of a header tells whether the payload is short or long. -/
theorem classify_short {length : Nat} (h : length < longFrom) :
    classify (shortString + UInt8.ofNat length) = (if length = 0 then .empty else .shortString) ∧
      classify (shortList + UInt8.ofNat length) = .shortList := by
  rw [longFrom] at h
  constructor
  · split <;> rw [classify_eq_iff] <;> simp [ItemKind.bounds, shortString] <;> omega
  · rw [classify_eq_iff]
    simp [ItemKind.bounds, shortList]
    omega

theorem classify_long {length : Nat} (h : longFrom ≤ length) (hsize : length < UInt64.size) :
    classify (longString + UInt8.ofNat (lengthField length).length) = .longString ∧
      classify (longList + UInt8.ofNat (lengthField length).length) = .longList := by
  rw [longFrom] at h
  have hle := length_lengthField_le length
  have hpos := length_lengthField_pos hsize (by omega)
  constructor <;> rw [classify_eq_iff] <;> simp [ItemKind.bounds, longString, longList] <;> omega

namespace Decoder

theorem stringPayload_cons (lead : UInt8) (rest : Bytes) :
    stringPayload (lead :: rest) = (match classify lead with
      | .singleByte => pure [lead]
      | .empty => pure []
      | .shortString => do
        let payload ← take (lead - shortString).toUInt64
        rejectIf (isBare payload) (.nonCanonical .prefixedByte)
        return payload
      | .longString => longLength (lead - longString) >>= take
      | .shortList => throw (Error.foundList lead)
      | .longList => throw (Error.foundList lead) : Decoder Bytes) rest := rfl

theorem listPayload_cons (lead : UInt8) (rest : Bytes) :
    listPayload (lead :: rest) = (match classify lead with
      | .shortList => take (lead - shortList).toUInt64
      | .longList => longLength (lead - longList) >>= take
      | _ => throw (Error.foundString lead) : Decoder Bytes) rest := rfl

/-- The lead byte of a list is refused as a string, whatever stands behind it. -/
theorem stringPayload_of_isList {lead : UInt8} (h : (classify lead).isList = true) (rest : Bytes) :
    stringPayload (lead :: rest) = .error (.foundList lead) rest := by
  rw [stringPayload_cons]
  generalize classify lead = kind at h
  cases kind with
  | shortList => rfl
  | longList => rfl
  | _ => cases h

/-- The lead byte of a string is refused as a list. -/
theorem listPayload_of_not_isList {lead : UInt8} (h : (classify lead).isList = false) (rest : Bytes) :
    listPayload (lead :: rest) = .error (.foundString lead) rest := by
  rw [listPayload_cons]
  generalize classify lead = kind at h
  cases kind with
  | shortList => cases h
  | longList => cases h
  | _ => rfl

theorem take_shortString {lead : UInt8} {s t p : Bytes} (hk : classify lead = .shortString) :
    take (lead - shortString).toUInt64 s = .ok p t ↔
      p.length < longFrom ∧ lead :: s = header p.length shortString longString ++ p ++ t := by
  have hb : 0x81 ≤ lead.toNat ∧ lead.toNat ≤ 0xb7 := classify_eq_iff.1 hk
  have h0 : shortString.toNat = 0x80 := rfl
  exact shortPayload_eq_ok (by omega) (by rw [longFrom]; omega)

theorem take_shortList {lead : UInt8} {s t p : Bytes} (hk : classify lead = .shortList) :
    take (lead - shortList).toUInt64 s = .ok p t ↔
      p.length < longFrom ∧ lead :: s = header p.length shortList longList ++ p ++ t := by
  have hb : 0xc0 ≤ lead.toNat ∧ lead.toNat ≤ 0xf7 := classify_eq_iff.1 hk
  have h0 : shortList.toNat = 0xc0 := rfl
  exact shortPayload_eq_ok (by omega) (by rw [longFrom]; omega)

theorem stringPayload_encodeString {p : Bytes} (t : Bytes) (h : p.length < UInt64.size) :
    stringPayload (encodeString p ++ t) = .ok p t := by
  cases hbare : isBare p with
  | true =>
    obtain ⟨b, hb, rfl⟩ := isBare_eq_true.1 hbare
    rw [encodeString_of_isBare hbare, List.singleton_append, stringPayload_cons, classify_bare hb]
    rfl
  | false =>
    rw [encodeString_of_not_isBare hbare]
    rcases Nat.lt_or_ge p.length longFrom with hlen | hlen
    · have hk := (classify_short hlen).1
      rw [header_short hlen, List.singleton_append, List.cons_append, stringPayload_cons, hk]
      by_cases hnil : p = []
      · subst hnil
        rfl
      · rw [if_neg (mt List.length_eq_zero_iff.1 hnil)] at hk ⊢
        have hread : take (shortString + UInt8.ofNat p.length - shortString).toUInt64 (p ++ t) = .ok p t :=
          (take_shortString hk).2 ⟨hlen, by rw [header_short hlen]; rfl⟩
        have hkeep : rejectIf (isBare p) (.nonCanonical .prefixedByte) t = .ok () t :=
          rejectIf_eq_ok.2 ⟨by simp [hbare], rfl⟩
        exact bind_eq_ok.2 ⟨p, t, hread, bind_eq_ok.2 ⟨(), t, hkeep, rfl⟩⟩
    · rw [header_long hlen, List.cons_append, List.cons_append, stringPayload_cons, (classify_long hlen h).1]
      exact (longPayload_eq_ok shortString).2 ⟨hlen, h, by rw [header_long hlen]; rfl⟩

theorem eq_encodeString_of_stringPayload {s t p : Bytes} (h : stringPayload s = .ok p t) :
    s = encodeString p ++ t ∧ p.length < UInt64.size := by
  cases s with
  | nil => cases h
  | cons lead r =>
    rw [stringPayload_cons] at h
    cases hk : classify lead with
    | singleByte =>
      rw [hk] at h
      obtain ⟨rfl, rfl⟩ := pure_eq_ok.1 h
      have hb := classify_eq_iff.1 hk
      exact ⟨by rw [encodeString_of_isBare (isBare_eq_true.2 ⟨lead, Nat.lt_succ_of_le hb.2, rfl⟩)]; rfl,
        (by decide : 1 < UInt64.size)⟩
    | empty =>
      rw [hk] at h
      obtain ⟨rfl, rfl⟩ := pure_eq_ok.1 h
      have hb := classify_eq_iff.1 hk
      have hlead : lead = shortString := UInt8.toNat_inj.1 (le_antisymm hb.2 hb.1)
      exact ⟨by rw [hlead]; rfl, (by decide : 0 < UInt64.size)⟩
    | shortString =>
      rw [hk] at h
      simp only [bind_eq_ok, rejectIf_eq_ok, pure_eq_ok] at h
      obtain ⟨_, _, hp, _, _, ⟨hbare, rfl⟩, rfl, rfl⟩ := h
      obtain ⟨hlen, hs⟩ := (take_shortString hk).1 hp
      rw [encodeString_of_not_isBare (by simpa using hbare)]
      exact ⟨hs, hlen.trans (by decide)⟩
    | longString =>
      rw [hk] at h
      obtain ⟨hlen, hsize, hs⟩ := (longPayload_eq_ok shortString).1 h
      rw [encodeString_of_not_isBare (isBare_eq_false_of_length hlen)]
      exact ⟨hs, hsize⟩
    | shortList => rw [hk] at h; cases h
    | longList => rw [hk] at h; cases h

theorem listPayload_encodeList {p : Bytes} (t : Bytes) (h : p.length < UInt64.size) :
    listPayload (encodeList p ++ t) = .ok p t := by
  rw [encodeList]
  rcases Nat.lt_or_ge p.length longFrom with hlen | hlen
  · have hk := (classify_short hlen).2
    rw [header_short hlen, List.singleton_append, List.cons_append, listPayload_cons, hk]
    exact (take_shortList hk).2 ⟨hlen, by rw [header_short hlen]; rfl⟩
  · rw [header_long hlen, List.cons_append, List.cons_append, listPayload_cons, (classify_long hlen h).2]
    exact (longPayload_eq_ok shortList).2 ⟨hlen, h, by rw [header_long hlen]; rfl⟩

theorem eq_encodeList_of_listPayload {s t p : Bytes} (h : listPayload s = .ok p t) :
    s = encodeList p ++ t ∧ p.length < UInt64.size := by
  cases s with
  | nil => cases h
  | cons lead r =>
    rw [listPayload_cons] at h
    rw [encodeList]
    cases hk : classify lead with
    | shortList =>
      rw [hk] at h
      obtain ⟨hlen, hs⟩ := (take_shortList hk).1 h
      exact ⟨hs, hlen.trans (by decide)⟩
    | longList =>
      rw [hk] at h
      obtain ⟨hlen, hsize, hs⟩ := (longPayload_eq_ok shortList).1 h
      exact ⟨hs, hsize⟩
    | singleByte => rw [hk] at h; cases h
    | empty => rw [hk] at h; cases h
    | shortString => rw [hk] at h; cases h
    | longString => rw [hk] at h; cases h

theorem stringPayload_eq_ok {s t p : Bytes} :
    stringPayload s = .ok p t ↔ s = encodeString p ++ t ∧ p.length < UInt64.size := by
  refine ⟨eq_encodeString_of_stringPayload, ?_⟩
  intro h
  obtain ⟨rfl, h⟩ := h
  exact stringPayload_encodeString t h

theorem listPayload_eq_ok {s t p : Bytes} :
    listPayload s = .ok p t ↔ s = encodeList p ++ t ∧ p.length < UInt64.size := by
  refine ⟨eq_encodeList_of_listPayload, ?_⟩
  intro h
  obtain ⟨rfl, h⟩ := h
  exact listPayload_encodeList t h

/-- The reader of strings accepts the encodings of strings. -/
theorem bytes_eq_ok {s t p : Bytes} :
    bytes s = .ok p t ↔ s = encodeString p ++ t ∧ p.length < UInt64.size :=
  atomically_eq_ok.trans stringPayload_eq_ok

/-- The reader of lists accepts the encodings of lists, whatever the payload is. -/
theorem list_eq_ok {s t p : Bytes} :
    list s = .ok p t ↔ s = encodeList p ++ t ∧ p.length < UInt64.size :=
  atomically_eq_ok.trans listPayload_eq_ok

end Decoder

theorem isList_of_list_eq_ok {lead : UInt8} {tail t p : Bytes}
    (h : Decoder.list (lead :: tail) = .ok p t) : (classify lead).isList = true := by
  rw [Decoder.list, Decoder.atomically_eq_ok] at h
  by_contra hstring
  rw [Decoder.listPayload_of_not_isList (Bool.eq_false_of_not_eq_true hstring)] at h
  cases h

theorem not_isList_of_bytes_eq_ok {lead : UInt8} {tail t p : Bytes}
    (h : Decoder.bytes (lead :: tail) = .ok p t) : (classify lead).isList = false := by
  rw [Decoder.bytes, Decoder.atomically_eq_ok] at h
  by_contra hlist
  rw [Decoder.stringPayload_of_isList (Bool.eq_true_of_not_eq_false hlist)] at h
  cases h

end Wallet.Rlp
