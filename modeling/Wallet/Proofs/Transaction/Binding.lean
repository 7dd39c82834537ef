import Wallet.Proofs.Rlp.Framing
import Wallet.Proofs.Transaction.RoundTrip

/-! What is signed binds every field of a transaction. The fields stand one behind the other, and each is
read off the front in one way (`body_append_inj`); so a payload determines the six fields and the tail
(`payload_inj`), and the tail without a signature is the chain id. A signing payload has `r = s = 0`
where an encoding has a signature. Main statement: `signingPayload_binds`. -/

namespace Wallet

namespace Rlp

/-- What a reader takes off an input is determined by the input. -/
theorem Decoder.ok_unique {α : Type} {x : Decoder α} {s t u : Bytes} {a b : α} (ha : x s = .ok a t)
    (hb : x s = .ok b u) : a = b ∧ t = u := by
  rw [ha] at hb
  cases hb
  exact ⟨rfl, rfl⟩

variable {t u : Bytes}

theorem encode_word_append_inj {a b : Word} (h : encode a ++ t = encode b ++ u) : a = b ∧ t = u :=
  Decoder.ok_unique (Decoder.read_word.2 rfl) (Decoder.read_word.2 h)

theorem encode_address_append_inj {a b : Address} (h : encode a ++ t = encode b ++ u) : a = b ∧ t = u :=
  Decoder.ok_unique (Decoder.read_address.2 rfl) (Decoder.read_address.2 h)

end Rlp

namespace Transaction

open Rlp (encode encodeList)
open Signature (InRange)

variable {a b : Transaction}

/-- The six fields are read off in one way, however long the data is. -/
theorem body_append_inj {t u : Bytes} (ht : t.length < 2 ^ 32) (hu : u.length < 2 ^ 32)
    (h : a.body ++ t = b.body ++ u) : a.unsealed = b.unsealed ∧ t = u := by
  simp only [body, List.append_assoc] at h
  obtain ⟨hnonce, h⟩ := Rlp.encode_word_append_inj h
  obtain ⟨hprice, h⟩ := Rlp.encode_word_append_inj h
  obtain ⟨hlimit, h⟩ := Rlp.encode_word_append_inj h
  obtain ⟨hrecipient, h⟩ := Rlp.encode_address_append_inj h
  obtain ⟨hvalue, h⟩ := Rlp.encode_word_append_inj h
  obtain ⟨hdata, h⟩ := Rlp.encodeString_append_inj ht hu h
  refine ⟨?_, h⟩
  rw [unsealed, unsealed, hnonce, hprice, hlimit, hrecipient, hvalue, hdata]

theorem Tail.length_bytes_lt (tail : Option Tail) : (Tail.bytes tail).length < 2 ^ 32 := by
  cases tail with
  | none => exact Nat.zero_lt_succ _
  | some tail =>
    have hv := Rlp.length_encode_word_le tail.v
    have hr := Rlp.length_encode_word_le tail.r
    have hs := Rlp.length_encode_word_le tail.s
    simp only [Tail.bytes, List.length_append]
    omega

theorem Tail.bytes_inj {x y : Option Tail} (h : Tail.bytes x = Tail.bytes y) : x = y :=
  (Rlp.Decoder.ok_unique (readTail_eq_ok.2 ⟨rfl, rfl⟩) (readTail_eq_ok.2 ⟨h, rfl⟩)).1

theorem body_unsealed (tx : Transaction) : tx.unsealed.body = tx.body := rfl

/-- A list payload determines the six fields and the tail. -/
theorem payload_inj : a.payload = b.payload ↔ a.unsealed = b.unsealed ∧ a.tail = b.tail := by
  refine ⟨fun h => ?_, fun h => ?_⟩
  · obtain ⟨hbody, htail⟩ := body_append_inj (Tail.length_bytes_lt _) (Tail.length_bytes_lt _) h
    exact ⟨hbody, Tail.bytes_inj htail⟩
  · rw [payload, payload, ← body_unsealed a, ← body_unsealed b, h.1, h.2]

theorem unsealed_inj :
    a.unsealed = b.unsealed ↔ a.nonce = b.nonce ∧ a.gasPrice = b.gasPrice ∧ a.gasLimit = b.gasLimit ∧
      a.recipient = b.recipient ∧ a.value = b.value ∧ a.data = b.data := by
  simp only [unsealed, Transaction.mk.injEq, and_true]

/-- Without a signature the tail is the chain id and two zeros, or nothing. -/
theorem tail_unsigned (tx : Transaction) :
    tail { tx with signature := none } = tx.chainId.map fun c => ⟨BitVec.ofNat 256 c.toNat, 0, 0⟩ := by
  cases tx.chainId <;> rfl

theorem tail_unsigned_inj :
    tail { a with signature := none } = tail { b with signature := none } ↔ a.chainId = b.chainId := by
  have hinj : Function.Injective fun c : UInt64 => (⟨BitVec.ofNat 256 c.toNat, 0, 0⟩ : Tail) := by
    intro c d h
    have hword : (BitVec.ofNat 256 c.toNat).toNat = (BitVec.ofNat 256 d.toNat).toNat :=
      congrArg (fun tail : Tail => tail.v.toNat) h
    have hc := c.toNat_lt
    have hd := d.toNat_lt
    rw [BitVec.toNat_ofNat, BitVec.toNat_ofNat] at hword
    exact UInt64.toNat_inj.1 (by omega)
  rw [tail_unsigned, tail_unsigned]
  exact (Option.map_injective hinj).eq_iff

theorem signingPayload_inj :
    a.signingPayload = b.signingPayload ↔ a.unsealed = b.unsealed ∧ a.chainId = b.chainId := by
  rw [signingPayload_eq, signingPayload_eq]
  refine ⟨fun h => ?_, fun h => ?_⟩
  · have hpayload := payload_inj.1 (Rlp.encodeList_inj h)
    rw [tail_unsigned_inj] at hpayload
    exact hpayload
  · exact congrArg encodeList (payload_inj.2 ⟨h.1, tail_unsigned_inj.2 h.2⟩)

/-- What is signed is not the encoding of a transaction that has a signature with `r` in range. -/
theorem signingPayload_ne_encoded {σ : Signature} (hσ : b.signature = some σ) (hr : InRange σ.r) :
    a.signingPayload ≠ b.encoded := by
  rw [signingPayload_eq, encoded_eq]
  intro h
  obtain ⟨-, htail⟩ := payload_inj.1 (Rlp.encodeList_inj h)
  rw [tail_unsigned, tail, hσ] at htail
  cases hchain : a.chainId with
  | none =>
    rw [hchain] at htail
    cases htail
  | some c =>
    rw [hchain, Option.map_some, Option.some.injEq, Tail.mk.injEq] at htail
    exact hr.1 htail.2.1.symm

/-- Two transactions have the same signing payload exactly if they agree in the six fields and in the chain
id, whatever their signatures are; and no signing payload is the encoding of a signed transaction. -/
theorem signingPayload_binds (a b : Transaction) :
    (a.signingPayload = b.signingPayload ↔
      a.nonce = b.nonce ∧ a.gasPrice = b.gasPrice ∧ a.gasLimit = b.gasLimit ∧ a.recipient = b.recipient ∧
        a.value = b.value ∧ a.data = b.data ∧ a.chainId = b.chainId) ∧
    ∀ σ, b.signature = some σ → InRange σ.r ∧ InRange σ.s ∧ (σ.v = 27 ∨ σ.v = 28) →
      a.signingPayload ≠ b.encoded := by
  constructor
  · rw [signingPayload_inj, unsealed_inj]
    simp only [and_assoc]
  · intro σ hσ hsound
    exact signingPayload_ne_encoded hσ hsound.1

/-- No chain id and chain id 0 are signed differently, and with or without its signature `small` is signed
alike. -/
theorem small_binds :
    signingPayload { small with chainId := none } ≠ signingPayload { small with chainId := some 0 } ∧
      small.signingPayload = signingPayload { small with signature := none } ∧
      small.signingPayload ≠ small.encoded := by
  refine ⟨fun h => ?_, ?_, ?_⟩
  · have hbinds := signingPayload_binds { small with chainId := none } { small with chainId := some 0 }
    obtain ⟨-, -, -, -, -, -, hchain⟩ := hbinds.1.1 h
    cases hchain
  · exact (signingPayload_binds small { small with signature := none }).1.2 ⟨rfl, rfl, rfl, rfl, rfl, rfl, rfl⟩
  · exact (signingPayload_binds small small).2 ⟨1, 1, 27⟩ rfl (by decide)

end Transaction
end Wallet
