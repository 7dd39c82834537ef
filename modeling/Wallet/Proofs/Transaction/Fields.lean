import Wallet.Proofs.Transaction.Envelope

/-! Lists of strings read as transactions. Every place of the list asks something of the string that stands
there (`Place.Admits`). Where all strings fit their places, how many there are decides until `v`, `r` and `s` are
complete (`readFields_items`), and then these three numbers decide (`withTail_eq`). Main statement:
`decode_items_outcome`. -/

namespace Wallet

theorem Signature.make_of_known {r s : Word} {v : UInt8} (hv : v = 27 ∨ v = 28) :
    make r s v =
      if ¬InRange r then .error (.outOfRange .r)
      else if ¬InRange s then .error (.outOfRange .s)
      else .ok ⟨r, s, v⟩ := by
  have hknown : ¬(v ≠ 0 ∧ v ≠ lowestV ∧ v ≠ lowestV + 1) := by
    rcases hv with rfl | rfl <;> decide
  rw [make, if_neg hknown]

namespace Transaction

open Rlp (Decoder encode encodeString encodeList)
open Signature (InRange)

/-! The three numbers -/

/-- The signed transaction that `v`, `r` and `s` make of six fields. -/
def withSignature (body : Transaction) (v r s : Word) : Transaction :=
  { body with
    chainId := ReplayProtection.chainIdOf v
    signature := some ⟨r, s, ReplayProtection.indicatorOf v⟩ }

theorem withTail_eq (body : Transaction) (v r s : Word) :
    body.withTail ⟨v, r, s⟩ =
      if r = 0 ∧ s = 0 then
        if v.toNat < 2 ^ 64 then .ok { body with chainId := some (UInt64.ofNat v.toNat) }
        else .error (.chainIdOverflow v)
      else if v.toNat < 35 ∧ v ≠ 27 ∧ v ≠ 28 then .error (.invalidV v)
      else if 35 ≤ v.toNat ∧ 2 ^ 64 ≤ (v.toNat - 35) / 2 then .error (.chainIdOverflow v)
      else if ¬InRange r then .error (.signature (.outOfRange .r))
      else if ¬InRange s then .error (.signature (.outOfRange .s))
      else .ok (body.withSignature v r s) := by
  unfold withTail
  dsimp only
  split
  · rfl
  · rw [ReplayProtection.split_eq]
    split
    · rfl
    · rename_i hv
      split
      · rfl
      · rw [Outcome.ok_bind]
        dsimp only
        rw [Signature.make_of_known (ReplayProtection.indicatorOf_cases hv)]
        split
        · rfl
        · split <;> rfl

/-! The strings at their places -/

/-- What a place asks of the string that stands there. -/
inductive Place
  | number
  | recipient
  | data

/-- A number has at most 32 bytes and no zero in front, a recipient has 20 bytes, data may be anything. -/
def Place.Admits : Place → Bytes → Prop
  | number, p => p.length ≤ 32 ∧ p.head? ≠ some 0
  | recipient, p => p.length = 20
  | data, _ => True

instance : (place : Place) → (p : Bytes) → Decidable (place.Admits p)
  | .number, _ => inferInstanceAs (Decidable (_ ∧ _))
  | .recipient, _ => inferInstanceAs (Decidable (_ = _))
  | .data, _ => .isTrue trivial

/-- The places for the six fields, and for `v`, `r` and `s`. -/
def places : List Place :=
  [.number, .number, .number, .recipient, .number, .data, .number, .number, .number]

/-- Whether strings fit the places at which they stand, as far as there are places and strings. -/
def Fit : List Place → List Bytes → Prop
  | place :: places, p :: items => place.Admits p ∧ Fit places items
  | _, _ => True

instance Fit.decidable : (ps : List Place) → (items : List Bytes) → Decidable (Fit ps items)
  | [], _ => .isTrue trivial
  | _ :: _, [] => .isTrue trivial
  | place :: ps, p :: items =>
    have := Fit.decidable ps items
    inferInstanceAs (Decidable (place.Admits p ∧ Fit ps items))

theorem Fit.drop {ps : List Place} {items : List Bytes} (h : Fit ps items) (n : Nat) :
    Fit (ps.drop n) (items.drop n) := by
  induction n generalizing ps items with
  | zero => exact h
  | succ n ih =>
    cases ps with
    | nil => trivial
    | cons place ps =>
      cases items with
      | nil => rw [List.drop_nil]; cases (place :: ps).drop (n + 1) <;> trivial
      | cons p items => exact ih h.2

/-- The number that the string at a place writes. -/
def numberAt (items : List Bytes) (place : Nat) : Word := Word.ofBytes (items.getD place [])

/-- The unsigned legacy transaction that the first six strings write. -/
def ofItems (items : List Bytes) : Transaction :=
  { nonce := numberAt items 0, gasPrice := numberAt items 1, gasLimit := numberAt items 2,
    recipient := ⟨.ofFn fun i => (items.getD 3 []).getD i 0⟩,
    value := numberAt items 4, data := items.getD 5 [], chainId := none, signature := none }

variable {items : List Bytes} {p t : Bytes}

theorem read_number (h : Place.number.Admits p) :
    Decoder.read Word (encodeString p ++ t) = .ok (Word.ofBytes p) t := by
  rw [Decoder.read_word, Rlp.encode_word_eq, Word.toBytes, Word.toNat_ofBytes h.1, Bytes.strip_ofNat_toNat h.2 h.1]

theorem read_recipient (h : Place.recipient.Admits p) :
    Decoder.read Address (encodeString p ++ t) = .ok ⟨.ofFn fun i => p.getD i 0⟩ t := by
  have hlength : p.length = 20 := h
  have hlist : Address.toList ⟨.ofFn fun i => p.getD i 0⟩ = p := by
    apply List.ext_getElem <;> simp [Address.toList, hlength]
  rw [Decoder.read_address]
  exact congrArg (encodeString · ++ t) hlist.symm

theorem read_data (h : p.length < UInt64.size) : Decoder.read Bytes (encodeString p ++ t) = .ok p t :=
  Decoder.read_bytes.2 ⟨rfl, h⟩

theorem readBody_items (hfit : Fit places items) (hsize : (items.flatMap encodeString).length < UInt64.size) :
    readBody (items.flatMap encodeString) =
      if items.length < 6 then .error (.endOfInput 0 1) []
      else .ok (ofItems items) ((items.drop 6).flatMap encodeString) := by
  unfold readBody
  rcases items with _ | ⟨nonce, items⟩
  · rfl
  rw [List.flatMap_cons, Rlp.bind_of_ok (read_number hfit.1)]
  rcases items with _ | ⟨gasPrice, items⟩
  · rfl
  rw [List.flatMap_cons, Rlp.bind_of_ok (read_number hfit.2.1)]
  rcases items with _ | ⟨gasLimit, items⟩
  · rfl
  rw [List.flatMap_cons, Rlp.bind_of_ok (read_number hfit.2.2.1)]
  rcases items with _ | ⟨recipient, items⟩
  · rfl
  rw [List.flatMap_cons, Rlp.bind_of_ok (read_recipient hfit.2.2.2.1)]
  rcases items with _ | ⟨value, items⟩
  · rfl
  rw [List.flatMap_cons, Rlp.bind_of_ok (read_number hfit.2.2.2.2.1)]
  rcases items with _ | ⟨data, items⟩
  · rfl
  have hdata : data.length < UInt64.size := by
    have hle := Rlp.length_le_encodeString data
    simp only [List.flatMap_cons, List.length_append] at hsize
    omega
  rw [List.flatMap_cons, Rlp.bind_of_ok (read_data hdata)]
  rfl

theorem readTail_of_ne_nil {s : Bytes} (h : s ≠ []) :
    readTail s = (do
      let v ← Decoder.read Word
      let r ← Decoder.read Word
      let s ← Decoder.read Word
      Decoder.finish
      return some ⟨v, r, s⟩ : Decoder (Option Tail)) s := by
  cases s with
  | nil => exact absurd rfl h
  | cons lead rest => exact readTail_cons lead rest

theorem flatMap_encodeString_ne_nil (p : Bytes) (items : List Bytes) :
    (p :: items).flatMap encodeString ≠ [] := by
  rw [List.flatMap_cons]
  exact List.append_ne_nil_of_left_ne_nil (Rlp.encodeString_ne_nil p) _

theorem readTail_items (hfit : Fit (places.drop 6) items) :
    readTail (items.flatMap encodeString) =
      if items.length = 0 then .ok none []
      else if items.length < 3 then .error (.endOfInput 0 1) []
      else if items.length = 3 then .ok (some ⟨numberAt items 0, numberAt items 1, numberAt items 2⟩) []
      else .error (.trailingBytes ((items.drop 3).flatMap encodeString).length)
        ((items.drop 3).flatMap encodeString) := by
  rcases items with _ | ⟨v, items⟩
  · rfl
  rw [readTail_of_ne_nil (flatMap_encodeString_ne_nil v items), List.flatMap_cons,
    Rlp.bind_of_ok (read_number hfit.1)]
  rcases items with _ | ⟨r, items⟩
  · rfl
  rw [List.flatMap_cons, Rlp.bind_of_ok (read_number hfit.2.1)]
  rcases items with _ | ⟨s, items⟩
  · rfl
  rw [List.flatMap_cons, Rlp.bind_of_ok (read_number hfit.2.2.1)]
  rcases items with _ | ⟨extra, items⟩
  · rfl
  exact Rlp.bind_of_error (finish_of_ne_nil (flatMap_encodeString_ne_nil extra items)) _

theorem numberAt_drop (items : List Bytes) (n place : Nat) :
    numberAt (items.drop n) place = numberAt items (n + place) := by
  simp only [numberAt, List.getD_eq_getElem?_getD, List.getElem?_drop]

/-- How many strings there are decides whether they are read. -/
theorem readFields_items (hfit : Fit places items) (hsize : (items.flatMap encodeString).length < UInt64.size) :
    readFields.parse (items.flatMap encodeString) =
      if items.length < 6 ∨ items.length = 7 ∨ items.length = 8 then .error (.endOfInput 0 1)
      else if items.length = 6 then .ok (ofItems items, none)
      else if items.length = 9 then
        .ok (ofItems items, some ⟨numberAt items 6, numberAt items 7, numberAt items 8⟩)
      else .error (.trailingBytes ((items.drop 9).flatMap encodeString).length) := by
  have hbody := readBody_items hfit hsize
  have htail := readTail_items (hfit.drop 6)
  rw [List.length_drop, List.drop_drop, numberAt_drop, numberAt_drop, numberAt_drop] at htail
  rcases Nat.lt_or_ge items.length 6 with hfew | hmany
  · rw [if_pos hfew] at hbody
    rw [if_pos (.inl hfew)]
    exact Decoder.parse_of_error (Rlp.bind_of_error hbody _)
  · rw [if_neg (by omega)] at hbody
    unfold Decoder.parse readFields
    rw [Rlp.bind_of_ok hbody]
    by_cases hsix : items.length = 6
    · rw [if_pos (by omega)] at htail
      rw [Rlp.bind_of_ok htail, if_neg (by omega), if_pos hsix]
      rfl
    rw [if_neg (by omega)] at htail
    rcases Nat.lt_or_ge items.length 9 with hless | hmore
    · rw [if_pos (by omega)] at htail
      rw [Rlp.bind_of_error htail, if_pos (by omega)]
    rw [if_neg (by omega)] at htail
    by_cases hnine : items.length = 9
    · rw [if_pos (by omega)] at htail
      rw [Rlp.bind_of_ok htail, if_neg (by omega), if_neg hsix, if_pos hnine]
      rfl
    · rw [if_neg (by omega)] at htail
      rw [Rlp.bind_of_error htail, if_neg (by omega), if_neg hsix, if_neg hnine]

/-! The list around the strings -/

theorem parse_encodeList {payload : Bytes} (hsize : payload.length < UInt64.size) :
    parse (encodeList payload) = (readFields.parse payload).mapError .rlp >>= fun
      | (body, none) => .ok body
      | (body, some tail) => body.withTail tail := by
  rw [parse, readEnvelope_eq_ok.2 ⟨rfl, hsize⟩]
  change (readFields.parse payload).mapError TransactionError.rlp >>= _ = _
  cases readFields.parse payload with
  | error e => rfl
  | ok read => obtain ⟨body, _ | tail⟩ := read <;> rfl

theorem Signed.result_decode (raw : Bytes) :
    (Signed.decode raw).result = match (Transaction.decode raw).result with
      | .ok tx => if tx.isSigned then .ok ⟨tx⟩ else .error .missingSignature
      | .error e => .error e := by
  rw [Signed.decode_eq, Reporting.result_bind]
  cases (Transaction.decode raw).result with
  | error e => rfl
  | ok tx =>
    rw [Outcome.ok_bind, requireSigned]
    dsimp only
    cases tx.isSigned <;> rfl

/-- What becomes of a list of strings that fit their places: too few or too many of them are refused, six are a
legacy transaction, and of nine the numbers `v`, `r` and `s` decide, in this order. Reading what has to be signed
differs from this in what is unsigned, whatever the bytes. -/
theorem decode_items_outcome (items : List Bytes) {v r s : Word} (hfit : Fit places items)
    (hsize : (items.flatMap encodeString).length < UInt64.size)
    (hv : numberAt items 6 = v) (hr : numberAt items 7 = r) (hs : numberAt items 8 = s) :
    (decode (encodeList (items.flatMap encodeString))).result =
      (if items.length < 6 ∨ items.length = 7 ∨ items.length = 8 then .error (.rlp (.endOfInput 0 1))
      else if 9 < items.length then
        .error (.rlp (.trailingBytes ((items.drop 9).flatMap encodeString).length))
      else if items.length = 6 then .ok (ofItems items)
      else if r = 0 ∧ s = 0 then
        if v.toNat < 2 ^ 64 then .ok { ofItems items with chainId := some (UInt64.ofNat v.toNat) }
        else .error (.chainIdOverflow v)
      else if v.toNat < 35 ∧ v ≠ 27 ∧ v ≠ 28 then .error (.invalidV v)
      else if 35 ≤ v.toNat ∧ 2 ^ 64 ≤ (v.toNat - 35) / 2 then .error (.chainIdOverflow v)
      else if ¬InRange r then .error (.signature (.outOfRange .r))
      else if ¬InRange s then .error (.signature (.outOfRange .s))
      else .ok ((ofItems items).withSignature v r s)) ∧
    ∀ raw, (Signed.decode raw).result = match (decode raw).result with
      | .ok tx => if tx.isSigned then .ok ⟨tx⟩ else .error .missingSignature
      | .error e => .error e := by
  refine ⟨?_, Signed.result_decode⟩
  rw [result_decode, parse_encodeList hsize, readFields_items hfit hsize, hv, hr, hs]
  by_cases hincomplete : items.length < 6 ∨ items.length = 7 ∨ items.length = 8
  · rw [if_pos hincomplete, if_pos hincomplete]
    rfl
  rw [if_neg hincomplete, if_neg hincomplete]
  by_cases hsix : items.length = 6
  · rw [if_pos hsix, if_neg (by omega), if_pos hsix]
    rfl
  rw [if_neg hsix]
  by_cases hnine : items.length = 9
  · rw [if_pos hnine, if_neg (by omega), if_neg hsix, ← withTail_eq]
    rfl
  · rw [if_neg hnine, if_pos (by omega)]
    rfl

/-- The strings of `small`, but for its last three numbers. -/
def smallItems (v r s : Bytes) : List Bytes := [[], [], [], List.replicate 20 0x35, [], [], v, r, s]

/-- The strings of `small` are read; the chain id 34 stands where neither `r` nor `s` does; and where only `s` does,
`v = 34` is refused before `r = 0` is. A tenth string is left over. -/
theorem small_items_outcome :
    (decode (encodeList ((smallItems [0x25] [0x01] [0x01]).flatMap encodeString))).result = .ok small ∧
      (decode (encodeList ((smallItems [0x22] [] []).flatMap encodeString))).result =
        .ok { small with chainId := some 34, signature := none } ∧
      (decode (encodeList ((smallItems [0x22] [] [0x01]).flatMap encodeString))).result = .error (.invalidV 34) ∧
      (decode (encodeList ((smallItems [0x25] [0x01] [0x01] ++ [[0x80]]).flatMap encodeString))).result =
        .error (.rlp (.trailingBytes 2)) := by
  refine ⟨?_, ?_, ?_, ?_⟩
  · exact (decode_items_outcome (smallItems [0x25] [0x01] [0x01]) (by decide) (by decide) rfl rfl rfl).1
  · exact (decode_items_outcome (smallItems [0x22] [] []) (by decide) (by decide) rfl rfl rfl).1
  · exact (decode_items_outcome (smallItems [0x22] [] [0x01]) (by decide) (by decide) rfl rfl rfl).1
  · exact (decode_items_outcome (smallItems [0x25] [0x01] [0x01] ++ [[0x80]]) (by decide) (by decide)
      rfl rfl rfl).1

end Transaction
end Wallet
