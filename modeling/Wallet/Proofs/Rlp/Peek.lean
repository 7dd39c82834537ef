import Wallet.Proofs.Rlp.Failure

/-! What the class of the next item promises. The lead byte alone tells strings from lists, so one of the two
reads is refused before anything else is looked at (`read_of_isList`, `list_of_not_isList`). Of an item that is
read, being the encoding of its payload, the class says how long the payload is (`peek_encodeString`,
`peek_encodeList`). Main statement: `peek_tells_next`. -/

namespace Wallet.Rlp

open ItemKind (classify)

namespace ItemKind

/-- The class of the string item with a given payload. -/
def ofString (p : Bytes) : ItemKind :=
  if isBare p then .singleByte
  else if p = [] then .empty
  else if p.length < longFrom then .shortString
  else .longString

/-- The class of the list item with a given payload. -/
def ofList (p : Bytes) : ItemKind := if p.length < longFrom then .shortList else .longList

variable {p : Bytes}

theorem ofString_eq_singleByte : ofString p = .singleByte ↔ ∃ b : UInt8, b.toNat < 0x80 ∧ p = [b] := by
  rw [← isBare_eq_true]
  unfold ofString
  split_ifs with hbare <;> simp [hbare]

theorem ofString_eq_empty : ofString p = .empty ↔ p = [] := by
  unfold ofString
  split_ifs with hbare hnil
  · obtain ⟨b, -, rfl⟩ := isBare_eq_true.1 hbare
    simp
  all_goals simp [*]

theorem ofString_eq_longString : ofString p = .longString ↔ longFrom ≤ p.length := by
  unfold ofString
  split_ifs with hbare hnil hshort
  · obtain ⟨b, -, rfl⟩ := isBare_eq_true.1 hbare
    simp [longFrom]
  · simp [hnil, longFrom]
  · simpa using hshort
  · simpa using hshort

theorem ofString_eq_shortString :
    ofString p = .shortString ↔
      ¬((∃ b : UInt8, b.toNat < 0x80 ∧ p = [b]) ∨ p = [] ∨ longFrom ≤ p.length) := by
  rw [← ofString_eq_singleByte, ← ofString_eq_empty, ← ofString_eq_longString]
  unfold ofString
  split_ifs <;> simp

end ItemKind

namespace Decoder

variable {p : Bytes} {lead : UInt8}

theorem peek_cons (lead : UInt8) (rest : Bytes) : peek (lead :: rest) = .ok (classify lead) (lead :: rest) := rfl

theorem peek_encodeString (h : p.length < UInt64.size) (t : Bytes) :
    peek (encodeString p ++ t) = .ok (.ofString p) (encodeString p ++ t) := by
  unfold ItemKind.ofString
  cases hbare : isBare p with
  | true =>
    obtain ⟨b, hb, rfl⟩ := isBare_eq_true.1 hbare
    rw [encodeString_of_isBare hbare, List.singleton_append, peek_cons, classify_bare hb]
    rfl
  | false =>
    rw [encodeString_of_not_isBare hbare]
    rcases Nat.lt_or_ge p.length longFrom with hlen | hlen
    · rw [header_short hlen, List.singleton_append, List.cons_append, peek_cons, (classify_short hlen).1]
      simp [hlen]
    · have hnil : p ≠ [] := by
        rintro rfl
        simp [longFrom] at hlen
      rw [header_long hlen, List.cons_append, List.cons_append, peek_cons, (classify_long hlen h).1]
      simp [hnil, Nat.not_lt.2 hlen]

theorem peek_encodeList (h : p.length < UInt64.size) (t : Bytes) :
    peek (encodeList p ++ t) = .ok (.ofList p) (encodeList p ++ t) := by
  rw [encodeList, ItemKind.ofList]
  rcases Nat.lt_or_ge p.length longFrom with hlen | hlen
  · rw [header_short hlen, List.singleton_append, List.cons_append, peek_cons, (classify_short hlen).2, if_pos hlen]
  · rw [header_long hlen, List.cons_append, List.cons_append, peek_cons, (classify_long hlen h).2,
      if_neg (Nat.not_lt.2 hlen)]

theorem read_of_isList (h : (classify lead).isList = true) (rest : Bytes) (op : Primitive) :
    op.read (lead :: rest) = .error (.foundList lead) (lead :: rest) :=
  op.read_of_error (stringPayload_of_isList h rest)

theorem list_of_not_isList (h : (classify lead).isList = false) (rest : Bytes) :
    list (lead :: rest) = .error (.foundString lead) (lead :: rest) :=
  atomically_of_error (listPayload_of_not_isList h rest)

/-- A look at the next item tells, of a string that can be read, whether it is one byte below `0x80`, empty, 56
bytes or longer, or none of these; of a list whether its payload has 56 bytes; and in any case which reads are
refused, and with what error. So no item is both a string and a list. -/
theorem peek_tells_next (s : Bytes) :
    (∀ p t, bytes s = .ok p t → ∃ kind, peek s = .ok kind s ∧
      (kind = .singleByte ↔ ∃ b : UInt8, b.toNat < 0x80 ∧ p = [b]) ∧
      (kind = .empty ↔ p = []) ∧
      (kind = .longString ↔ 56 ≤ p.length) ∧
      (kind = .shortString ↔ ¬((∃ b : UInt8, b.toNat < 0x80 ∧ p = [b]) ∨ p = [] ∨ 56 ≤ p.length))) ∧
    (∀ p t, list s = .ok p t → peek s = .ok (if 56 ≤ p.length then .longList else .shortList) s) ∧
    (∀ kind t, peek s = .ok kind t → t = s ∧ ∃ lead, s.head? = some lead ∧
      (kind.isList = true → ∀ op : Primitive, op.read s = .error (.foundList lead) s) ∧
      (kind.isList = false → list s = .error (.foundString lead) s)) ∧
    (∀ e t, peek s = .error e t →
      e = .endOfInput 0 1 ∧ (∀ op : Primitive, op.read s = .error e s) ∧ list s = .error e s) ∧
    ¬((∃ p t, bytes s = .ok p t) ∧ ∃ p t, list s = .ok p t) := by
  refine ⟨fun p t h => ?_, fun p t h => ?_, fun kind t h => ?_, fun e t h => ?_, ?_⟩
  · obtain ⟨rfl, hsize⟩ := bytes_eq_ok.1 h
    exact ⟨_, peek_encodeString hsize t, ItemKind.ofString_eq_singleByte, ItemKind.ofString_eq_empty,
      ItemKind.ofString_eq_longString, ItemKind.ofString_eq_shortString⟩
  · obtain ⟨rfl, hsize⟩ := list_eq_ok.1 h
    rw [peek_encodeList hsize, ItemKind.ofList, longFrom]
    by_cases hlong : 56 ≤ p.length
    · rw [if_pos hlong, if_neg (Nat.not_lt.2 hlong)]
    · rw [if_neg hlong, if_pos (Nat.lt_of_not_le hlong)]
  · cases s with
    | nil => cases h
    | cons lead rest =>
      rw [peek_cons] at h
      cases h
      exact ⟨rfl, lead, rfl, fun hlist => read_of_isList hlist rest, fun hstring => list_of_not_isList hstring rest⟩
  · cases s with
    | nil =>
      cases h
      have hstring : stringPayload [] = .error (.endOfInput 0 1) [] := rfl
      have hlist : listPayload [] = .error (.endOfInput 0 1) [] := rfl
      exact ⟨rfl, Primitive.read_of_error hstring, atomically_of_error hlist⟩
    | cons lead rest => cases h
  · rintro ⟨⟨p, t, hstring⟩, q, r, hlist⟩
    cases s with
    | nil => cases hstring
    | cons lead rest =>
      have hkind := isList_of_list_eq_ok hlist
      rw [not_isList_of_bytes_eq_ok hstring] at hkind
      cases hkind

end Decoder
end Wallet.Rlp
