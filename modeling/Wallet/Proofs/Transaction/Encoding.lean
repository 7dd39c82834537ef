import Wallet.Proofs.Outcome
import Wallet.Proofs.Rlp.Typed
import Wallet.Proofs.Signature.Range
import Wallet.Proofs.Transaction.ReplayProtection
import Wallet.Transaction.Draft

/-! The bytes of a transaction determine it, and it determines them. The three shapes are one: six
fields, and then a tail that may be missing (`encoded_eq`). Reading gives back the six fields and the
tail (`readFields_eq_ok`), and a tail that is read stands for one chain id and one signature, since
no stored signature has `r = s = 0` (`withTail_eq_ok`). Main statement: `parse_eq_ok`. -/

namespace Wallet.Transaction

open Rlp (encode encodeList Encoder Decoder)
open Signature (InRange)

/-- What holds of the signature that a transaction carries: its `v` is known. -/
def Sound (tx : Transaction) : Prop :=
  ∀ σ, tx.signature = some σ → InRange σ.r ∧ InRange σ.s ∧ (σ.v = 27 ∨ σ.v = 28)

/-- The transaction with the chain id and the signature left out. -/
def unsealed (tx : Transaction) : Transaction := { tx with chainId := none, signature := none }

/-- The six fields as they are written. -/
def body (tx : Transaction) : Bytes :=
  encode tx.nonce ++ encode tx.gasPrice ++ encode tx.gasLimit ++ encode tx.recipient ++
    encode tx.value ++ encode tx.data

/-- The last three fields, if there are any. -/
def tail (tx : Transaction) : Option Tail :=
  match tx.signature, tx.chainId with
  | some σ, chainId => some ⟨ReplayProtection.fold σ.v chainId, σ.r, σ.s⟩
  | none, some chainId => some ⟨BitVec.ofNat 256 chainId.toNat, 0, 0⟩
  | none, none => none

/-- The last three fields as they are written. -/
def Tail.bytes : Option Tail → Bytes
  | none => []
  | some t => encode t.v ++ encode t.r ++ encode t.s

/-- The list payload of a transaction. -/
def payload (tx : Transaction) : Bytes := tx.body ++ Tail.bytes tx.tail

theorem finish_eq_ok {s t : Bytes} {u : Unit} : Decoder.finish s = .ok u t ↔ s = [] ∧ t = [] := by
  cases s <;> simp [Decoder.finish, eq_comm]

theorem output_empty : Encoder.empty.output = [] := rfl

theorem output_write {α : Type} [Rlp.Encodable α] (e : Encoder) (a : α) :
    (e.write a).output = e.output ++ encode a := rfl

theorem output_writeListWith (items : Encoder → Encoder) :
    (Encoder.empty.writeListWith items).output = encodeList (items Encoder.empty).output :=
  List.nil_append _

theorem output_writeBody (tx : Transaction) : (tx.writeBody Encoder.empty).output = tx.body := by
  simp only [writeBody, body, output_write, output_empty, List.nil_append]

/-- What is signed has no signature in it. -/
theorem signingPayload_eq (tx : Transaction) :
    tx.signingPayload = encodeList (payload { tx with signature := none }) := by
  obtain ⟨nonce, gasPrice, gasLimit, recipient, value, data, chainId, signature⟩ := tx
  rw [signingPayload, output_writeListWith]
  cases chainId with
  | none => simp only [output_writeBody, payload, tail, Tail.bytes, List.append_nil, body]
  | some chainId =>
    simp only [output_write, output_writeBody, payload, tail, Tail.bytes, Rlp.encode_uint64_eq,
      Rlp.encode_uint8_zero, List.append_assoc, body]

theorem encoded_eq (tx : Transaction) : tx.encoded = encodeList tx.payload := by
  obtain ⟨nonce, gasPrice, gasLimit, recipient, value, data, chainId, signature⟩ := tx
  cases signature with
  | none => exact signingPayload_eq _
  | some σ =>
    change (Encoder.writeListWith _ _).output = _
    rw [output_writeListWith]
    simp only [output_write, output_writeBody, payload, tail, Tail.bytes, List.append_assoc]

theorem readEnvelope_eq_ok {raw p : Bytes} :
    readEnvelope.parse raw = .ok p ↔ raw = encodeList p ∧ p.length < UInt64.size := by
  simp only [Outcome.parse_eq_ok, readEnvelope, Decoder.bind_eq_ok, Decoder.list_eq_ok, Decoder.pure_eq_ok,
    finish_eq_ok]
  refine ⟨fun h => ?_, fun h => ?_⟩
  · obtain ⟨_, _, _, ⟨rfl, hsize⟩, _, _, ⟨rfl, rfl⟩, rfl, rfl⟩ := h
    exact ⟨List.append_nil _, hsize⟩
  · exact ⟨[], p, [], ⟨by rw [h.1, List.append_nil], h.2⟩, (), [], ⟨rfl, rfl⟩, rfl, rfl⟩

/-- The six fields are read from their own bytes. -/
theorem readBody_eq_ok {s t : Bytes} {b : Transaction} :
    readBody s = .ok b t ↔ s = b.body ++ t ∧ b.unsealed = b ∧ b.data.length < UInt64.size := by
  simp only [readBody, Decoder.bind_eq_ok, Decoder.read_word, Decoder.read_address, Decoder.read_bytes,
    Decoder.pure_eq_ok]
  refine ⟨fun h => ?_, fun h => ?_⟩
  · -- the equations are not substituted: that would compute the encodings
    obtain ⟨_, _, h1, _, _, h2, _, _, h3, _, _, h4, _, _, h5, _, _, ⟨h6, hsize⟩, rfl, rfl⟩ := h
    refine ⟨?_, rfl, hsize⟩
    rw [h1, h2, h3, h4, h5, h6]
    simp only [body, List.append_assoc]
  · obtain ⟨hs, hb, hsize⟩ := h
    simp only [body, List.append_assoc] at hs
    exact ⟨_, _, hs, _, _, rfl, _, _, rfl, _, _, rfl, _, _, rfl, _, _, ⟨rfl, hsize⟩, hb, rfl⟩

theorem Tail.bytes_some_ne_nil (tail : Tail) : Tail.bytes (some tail) ≠ [] := by
  simp [Tail.bytes, Rlp.encode_word_ne_nil]

theorem readTail_cons (lead : UInt8) (rest : Bytes) :
    readTail (lead :: rest) = (do
      let v ← Decoder.read Word
      let r ← Decoder.read Word
      let s ← Decoder.read Word
      Decoder.finish
      return some ⟨v, r, s⟩ : Decoder (Option Tail)) (lead :: rest) := rfl

/-- A tail is read to the end, or there is none. -/
theorem readTail_eq_ok {s t : Bytes} {tail : Option Tail} :
    readTail s = .ok tail t ↔ s = Tail.bytes tail ∧ t = [] := by
  cases s with
  | nil =>
    cases tail with
    | none =>
      refine ⟨fun h => ?_, fun h => ?_⟩
      · cases h
        exact ⟨rfl, rfl⟩
      · rw [h.2]
        rfl
    | some tail =>
      refine ⟨fun h => ?_, fun h => absurd h.1.symm tail.bytes_some_ne_nil⟩
      cases h
  | cons lead rest =>
    simp only [readTail_cons, Decoder.bind_eq_ok, Decoder.read_word, Decoder.pure_eq_ok, finish_eq_ok]
    refine ⟨fun h => ?_, fun h => ?_⟩
    · obtain ⟨_, _, h1, _, _, h2, _, _, h3, _, _, ⟨rfl, rfl⟩, rfl, rfl⟩ := h
      refine ⟨?_, rfl⟩
      rw [h1, h2, h3]
      simp only [Tail.bytes, List.append_assoc, List.append_nil]
    · obtain ⟨hs, rfl⟩ := h
      cases tail with
      | none => cases hs
      | some tail =>
        simp only [Tail.bytes, List.append_assoc] at hs
        exact ⟨_, _, hs, _, _, rfl, tail.s, [], (List.append_nil _).symm, (), [], ⟨rfl, rfl⟩, rfl, rfl⟩

/-- Six fields and a tail are read from their own bytes, and nothing may follow. -/
theorem readFields_eq_ok {s : Bytes} {b : Transaction} {tail : Option Tail} :
    readFields.parse s = .ok (b, tail) ↔
      s = b.body ++ Tail.bytes tail ∧ b.unsealed = b ∧ b.data.length < UInt64.size := by
  simp only [Outcome.parse_eq_ok, readFields, Decoder.bind_eq_ok, readBody_eq_ok, readTail_eq_ok,
    Decoder.pure_eq_ok, Prod.mk.injEq]
  refine ⟨fun h => ?_, fun h => ?_⟩
  · obtain ⟨_, _, _, ⟨hs, hb, hsize⟩, _, _, ⟨ht, -⟩, ⟨rfl, rfl⟩, -⟩ := h
    exact ⟨ht ▸ hs, hb, hsize⟩
  · exact ⟨[], b, _, h, tail, [], ⟨rfl, rfl⟩, ⟨rfl, rfl⟩, rfl⟩

/-- The tail of a transaction is the only one that makes it of its six fields. -/
theorem withTail_eq_ok {b tx : Transaction} {tail : Tail} (hb : b.unsealed = b) :
    b.withTail tail = .ok tx ↔ tx.tail = some tail ∧ tx.Sound ∧ tx.unsealed = b := by
  obtain ⟨v, r, s⟩ := tail
  refine ⟨fun h => ?_, fun h => ?_⟩
  · have hnone : b.signature = none := by rw [← hb]; rfl
    unfold withTail at h
    split at h
    · rename_i hzero
      obtain ⟨rfl, rfl⟩ := hzero
      split at h
      · rename_i hsize
        obtain rfl := Outcome.pure_eq_ok.1 h
        have hv : (UInt64.ofNat v.toNat).toNat = v.toNat := UInt64.toNat_ofNat_of_lt' hsize
        refine ⟨?_, fun σ hσ => ?_, hb⟩
        · simp only [Transaction.tail, hnone, hv, BitVec.ofNat_toNat, BitVec.setWidth_eq]
        · rw [hnone] at hσ
          cases hσ
      · cases h
    · simp only [Outcome.bind_eq_ok, Outcome.mapError_eq_ok, Outcome.pure_eq_ok, Prod.exists,
        ReplayProtection.split_eq_ok, Signature.make_eq_ok] at h
      obtain ⟨chainId, w, ⟨hw, rfl⟩, σ, ⟨rfl, hr, hs, -⟩, rfl⟩ := h
      refine ⟨rfl, fun σ hσ => ?_, hb⟩
      cases hσ
      exact ⟨hr, hs, hw⟩
  · obtain ⟨htail, hsound, rfl⟩ := h
    obtain ⟨nonce, gasPrice, gasLimit, recipient, value, data, chainId, signature⟩ := tx
    unfold withTail
    cases signature with
    | some σ =>
      obtain ⟨hr, hs, hv⟩ := hsound σ rfl
      cases htail
      rw [if_neg fun h => hr.1 h.1]
      simp only [Outcome.bind_eq_ok, Outcome.mapError_eq_ok, Outcome.pure_eq_ok, Prod.exists,
        ReplayProtection.split_eq_ok, Signature.make_eq_ok]
      exact ⟨chainId, σ.v, ⟨hv, rfl⟩, σ, ⟨rfl, hr, hs, Or.inr hv⟩, rfl⟩
    | none =>
      cases chainId with
      | none => cases htail
      | some chainId =>
        cases htail
        have hc := chainId.toNat_lt
        have hv : (BitVec.ofNat 256 chainId.toNat).toNat = chainId.toNat := by
          rw [BitVec.toNat_ofNat]
          exact Nat.mod_eq_of_lt (hc.trans (by decide))
        rw [if_pos ⟨rfl, rfl⟩]
        simp only [hv]
        rw [if_pos hc, UInt64.ofNat_toNat]
        rfl

theorem length_data_le (tx : Transaction) : tx.data.length ≤ tx.payload.length := by
  have hdata : tx.data.length ≤ (encode tx.data).length := Rlp.length_le_encodeString tx.data
  simp only [payload, body, List.length_append]
  omega

/-- What is read without a tail or with one is what is written without it or with it. -/
theorem sealed_eq_ok {b tx : Transaction} {tail : Option Tail} (hb : b.unsealed = b) :
    (match tail with
      | none => pure b
      | some tail => b.withTail tail) = Except.ok tx ↔ tx.tail = tail ∧ tx.Sound ∧ tx.unsealed = b := by
  cases tail with
  | some tail => exact withTail_eq_ok hb
  | none =>
    refine Outcome.pure_eq_ok.trans ⟨fun h => ?_, fun h => ?_⟩
    · subst h
      refine ⟨by rw [← hb]; rfl, fun σ hσ => ?_, hb⟩
      rw [← hb] at hσ
      cases hσ
    · obtain ⟨htail, -, rfl⟩ := h
      obtain ⟨nonce, gasPrice, gasLimit, recipient, value, data, chainId, signature⟩ := tx
      cases signature with
      | some σ => cases htail
      | none =>
        cases chainId with
        | some chainId => cases htail
        | none => rfl

/-- Reading accepts the encodings of sound transactions and nothing else. -/
theorem parse_eq_ok {raw : Bytes} {tx : Transaction} :
    parse raw = .ok tx ↔ raw = tx.encoded ∧ tx.Sound ∧ tx.payload.length < UInt64.size := by
  simp only [parse, Outcome.bind_eq_ok, Outcome.mapError_eq_ok, readEnvelope_eq_ok, readFields_eq_ok,
    Prod.exists]
  rw [encoded_eq]
  refine ⟨fun h => ?_, fun h => ?_⟩
  · obtain ⟨p, ⟨hraw, hsize⟩, b, tail, ⟨hp, hb, -⟩, h⟩ := h
    obtain ⟨htail, hsound, rfl⟩ := (sealed_eq_ok hb).1 h
    have hpayload : p = tx.payload := by
      rw [hp, payload, htail]
      rfl
    rw [← hpayload]
    exact ⟨hraw, hsound, hsize⟩
  · obtain ⟨hraw, hsound, hsize⟩ := h
    have hdata : tx.unsealed.data.length < UInt64.size := tx.length_data_le.trans_lt hsize
    exact ⟨tx.payload, ⟨hraw, hsize⟩, tx.unsealed, tx.tail, ⟨rfl, rfl, hdata⟩,
      (sealed_eq_ok rfl).2 ⟨rfl, hsound, rfl⟩⟩

theorem length_payload_lt (tx : Transaction) : tx.payload.length < tx.encoded.length := by
  rw [encoded_eq]
  exact Rlp.length_lt_encodeList _

/-- The report of a reading: a signed transaction is reported, and nothing else is. -/
def report (tx : Transaction) : Reporting TransactionError Transaction :=
  if tx.isSigned then Reporting.emit (.decodedTransaction tx.hash tx.chainId) >>= fun _ => pure tx
  else pure tx

theorem decode_eq (raw : Bytes) : decode raw = Reporting.silent (parse raw) >>= report := rfl

theorem result_report (tx : Transaction) : tx.report.result = .ok tx := by
  unfold report
  cases tx.isSigned <;> rfl

theorem events_report (tx : Transaction) :
    tx.report.events = if tx.isSigned then [.decodedTransaction tx.hash tx.chainId] else [] := by
  unfold report
  cases tx.isSigned <;> rfl

theorem result_decode (raw : Bytes) : (decode raw).result = parse raw := by
  rw [decode_eq, Reporting.result_bind, Reporting.result_silent]
  cases parse raw with
  | error e => rfl
  | ok tx => exact result_report tx

theorem decode_eq_ok {raw : Bytes} {tx : Transaction} :
    (decode raw).result = .ok tx ↔ raw = tx.encoded ∧ tx.Sound ∧ tx.payload.length < UInt64.size := by
  rw [result_decode, parse_eq_ok]

/-- A sound transaction whose bytes can be counted is read back from them. -/
theorem decode_encoded_of_sound {tx : Transaction} (h : tx.Sound) (hsize : tx.encoded.length < UInt64.size) :
    (decode tx.encoded).result = .ok tx :=
  decode_eq_ok.2 ⟨rfl, h, tx.length_payload_lt.trans hsize⟩

end Wallet.Transaction
