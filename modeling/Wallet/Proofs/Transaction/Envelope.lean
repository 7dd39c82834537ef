import Wallet.Proofs.Rlp.Truncation
import Wallet.Proofs.Transaction.RoundTrip

/-! The list around a transaction says where the transaction ends. Bytes that stop before the end lack
something of that list, bytes that go on behind it are left over, and both are reported with their counts.
Main statement: `self_delimiting`. -/

namespace Wallet.Transaction

open Rlp (Decoder Primitive encodeString encodeList shortage)

variable {raw payload : Bytes} {e : Rlp.Error}

theorem parse_of_envelope_error (h : readEnvelope.parse raw = .error e) : parse raw = .error (.rlp e) := by
  rw [parse, h]
  rfl

theorem readEnvelope_cut {p rest : Bytes} (hsize : payload.length < UInt64.size)
    (h : p ++ rest = encodeList payload) (hrest : rest ≠ []) :
    readEnvelope.parse p = .error (shortage payload.length p.length) :=
  Decoder.parse_of_error (Rlp.bind_of_error (Decoder.list_cut hsize h hrest) _)

theorem finish_of_ne_nil {s : Bytes} (h : s ≠ []) : Decoder.finish s = .error (.trailingBytes s.length) s := by
  cases s with
  | nil => exact absurd rfl h
  | cons b s => rfl

theorem readEnvelope_append {extra : Bytes} (hsize : payload.length < UInt64.size) (hextra : extra ≠ []) :
    readEnvelope.parse (encodeList payload ++ extra) = .error (.trailingBytes extra.length) := by
  have hlist : Decoder.list (encodeList payload ++ extra) = .ok payload extra := Decoder.list_eq_ok.2 ⟨rfl, hsize⟩
  refine Decoder.parse_of_error (t := extra) ?_
  rw [readEnvelope, Rlp.bind_of_ok hlist]
  exact Rlp.bind_of_error (finish_of_ne_nil hextra) _

/-- The first bytes of a string item, but not all of them, are refused by every read of a string item, and those
of a list item by the read of a list; what is reported is how much there is of the part that is cut. So is
every transaction whose bytes are cut, and bytes behind a transaction are counted. -/
theorem self_delimiting :
    (∀ payload p : Bytes, payload.length < UInt64.size →
      p <+: encodeString payload → p ≠ encodeString payload →
      ∀ op : Primitive, op.read p = .error (shortage payload.length p.length) p) ∧
    (∀ payload p : Bytes, payload.length < UInt64.size → p <+: encodeList payload → p ≠ encodeList payload →
      Decoder.list p = .error (shortage payload.length p.length) p) ∧
    ∀ raw tx, (decode raw).result = .ok tx →
      (∀ p, p <+: raw → p ≠ raw → (decode p).result = .error (.rlp (shortage tx.payload.length p.length))) ∧
      ∀ extra, extra ≠ [] → (decode (raw ++ extra)).result = .error (.rlp (.trailingBytes extra.length)) := by
  refine ⟨fun payload p hsize hp hne op => ?_, fun payload p hsize hp hne => ?_, fun raw tx hread => ?_⟩
  · obtain ⟨rest, hrest, h⟩ := Rlp.exists_rest_of_prefix hp hne
    exact op.read_cut hsize h hrest
  · obtain ⟨rest, hrest, h⟩ := Rlp.exists_rest_of_prefix hp hne
    exact Decoder.list_cut hsize h hrest
  · obtain ⟨rfl, -, hsize⟩ := decode_eq_ok.1 hread
    rw [encoded_eq]
    refine ⟨fun p hp hne => ?_, fun extra hextra => ?_⟩
    · obtain ⟨rest, hrest, h⟩ := Rlp.exists_rest_of_prefix hp hne
      rw [result_decode]
      exact parse_of_envelope_error (readEnvelope_cut hsize h hrest)
    · rw [result_decode]
      exact parse_of_envelope_error (readEnvelope_append hsize hextra)

/-- A text of 256 bytes that ends in its length field, a list of two bytes that ends behind the first, and `small`
with 20 bytes too few and with one too many. -/
theorem small_self_delimiting :
    Primitive.text.read [0xb9, 0x01] = .error (.endOfInput 1 2) [0xb9, 0x01] ∧
      Decoder.list [0xc2, 0x80] = .error (.endOfInput 1 2) [0xc2, 0x80] ∧
      (decode (small.encoded.take 10)).result = .error (.rlp (.endOfInput 9 29)) ∧
      (decode (small.encoded ++ [0x00])).result = .error (.rlp (.trailingBytes 1)) := by
  obtain ⟨hstring, hlist, htransaction⟩ := self_delimiting
  have hread : (decode small.encoded).result = .ok small :=
    decode_encoded_of_sound small_sound (by rw [encoded_small]; decide)
  obtain ⟨hcut, hextra⟩ := htransaction small.encoded small hread
  refine ⟨?_, ?_, ?_, ?_⟩
  · obtain ⟨zeros, hzeros⟩ : ∃ zeros : Bytes, zeros.length = 256 := ⟨_, List.length_replicate (a := 0x00)⟩
    have hheader : Rlp.header 256 Rlp.shortString Rlp.longString = [0xb9, 0x01, 0x00] := by decide
    have hencoded : encodeString zeros = [0xb9, 0x01, 0x00] ++ zeros := by
      rw [Rlp.encodeString_of_not_isBare (Rlp.isBare_eq_false_of_length (by rw [hzeros]; decide)), hzeros, hheader]
    have htext := hstring zeros [0xb9, 0x01] (by rw [hzeros]; decide) ⟨0x00 :: zeros, hencoded.symm⟩
      (by rw [hencoded]; simp) .text
    rw [hzeros] at htext
    exact htext
  · exact hlist [0x80, 0x80] [0xc2, 0x80] (by decide) (by decide) (by decide)
  · exact hcut (small.encoded.take 10) (List.take_prefix _ _) (by decide)
  · exact hextra [0x00] (by decide)

end Wallet.Transaction
