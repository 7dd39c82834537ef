import Wallet.Proofs.Signature.Signing
import Wallet.Proofs.Transaction.Encoding

/-! Every transaction that the library hands out, however it was made, carries a sound signature or
none; so it is read back from its bytes (`made_round_trips`). And the bytes that are read are the
bytes that are written, which makes the hash of a transaction the hash of what was read
(`decode_is_faithful`). -/

namespace Wallet.Transaction

open Signature (InRange)

variable {tx : Transaction} {pair : KeyPair} {raw : Bytes} {σ : Signature}

/-! Signing and reading, step by step -/

/-- The report of a signature. -/
def reportSigned (tx : Transaction) (σ : Signature) : Reporting TransactionError Signature := do
  Reporting.emit (.signedTransaction tx.nonce tx.recipient tx.chainId σ.v)
  return σ

theorem sign_eq (tx : Transaction) (pair : KeyPair) :
    tx.sign pair = (Signer.signDigest { pair } (Keccak.digest256 tx.signingPayload)).adapt .signature >>=
      tx.reportSigned := rfl

theorem result_reportSigned (tx : Transaction) (σ : Signature) : (tx.reportSigned σ).result = .ok σ := rfl

theorem sign_eq_ok :
    (tx.sign pair).result = .ok σ ↔
      (Signer.signDigest { pair } (Keccak.digest256 tx.signingPayload)).result = .ok σ := by
  simp only [sign_eq, Outcome.result_bind_eq_ok, Reporting.result_adapt, Outcome.mapError_eq_ok,
    result_reportSigned, Except.ok.injEq, exists_eq_right]

theorem Addressed.sign_eq (a : Addressed) (pair : KeyPair) :
    a.sign pair = a.transaction.sign pair >>= fun σ => pure ⟨{ a.transaction with signature := some σ }⟩ := rfl

theorem Addressed.sign_eq_ok {a : Addressed} {s : Signed} :
    (a.sign pair).result = .ok s ↔
      ∃ σ, (a.transaction.sign pair).result = .ok σ ∧ ⟨{ a.transaction with signature := some σ }⟩ = s := by
  simp only [Addressed.sign_eq, Outcome.result_bind_eq_ok, Reporting.result_pure, Except.ok.injEq]

/-- A transaction as a signed one, if it is. -/
def requireSigned (tx : Transaction) : Reporting TransactionError Signed :=
  if !tx.isSigned then throw .missingSignature else pure ⟨tx⟩

theorem Signed.decode_eq (raw : Bytes) : Signed.decode raw = Transaction.decode raw >>= requireSigned := by
  unfold Signed.decode requireSigned
  refine bind_congr fun tx => ?_
  split <;> rfl

theorem requireSigned_eq_ok {s : Signed} :
    tx.requireSigned.result = .ok s ↔ tx = s.transaction ∧ tx.isSigned = true := by
  obtain ⟨tx'⟩ := s
  unfold requireSigned
  cases tx.isSigned <;> simp

/-- What is read as signed is what is read and signed. -/
theorem Signed.decode_eq_ok {s : Signed} :
    (Signed.decode raw).result = .ok s ↔
      (Transaction.decode raw).result = .ok s.transaction ∧ s.transaction.isSigned = true := by
  simp only [Signed.decode_eq, Outcome.result_bind_eq_ok, requireSigned_eq_ok]
  constructor
  · rintro ⟨tx, hread, rfl, hsigned⟩
    exact ⟨hread, hsigned⟩
  · rintro ⟨hread, hsigned⟩
    exact ⟨_, hread, rfl, hsigned⟩

/-! What the library hands out -/

/-- Transactions that the library hands out: unsigned from a draft, signed from a draft by a key pair,
read from bytes of any shape, or read from the bytes of a signed one. -/
inductive Made : Transaction → Prop
  | unsigned (d : Draft) (recipient : Address) : Made (d.address recipient).build
  | signed (d : Draft) (recipient : Address) (pair : KeyPair) (s : Signed)
      (h : ((d.address recipient).sign pair).result = .ok s) : Made s.build
  | read (raw : Bytes) (tx : Transaction) (h : (decode raw).result = .ok tx) : Made tx
  | readSigned (raw : Bytes) (s : Signed) (h : (Signed.decode raw).result = .ok s) : Made s.build

theorem Made.sound (h : Made tx) : tx.Sound := by
  cases h with
  | unsigned d recipient =>
    intro σ hσ
    cases hσ
  | signed d recipient pair s h =>
    obtain ⟨σ, hσ, rfl⟩ := Addressed.sign_eq_ok.1 h
    obtain ⟨hr, hs, hv, -⟩ := Signer.signDigest_eq_ok (sign_eq_ok.1 hσ)
    intro τ hτ
    cases hτ
    exact ⟨hr, hs, hv⟩
  | read raw tx h => exact (decode_eq_ok.1 h).2.1
  | readSigned raw s h => exact (decode_eq_ok.1 (Signed.decode_eq_ok.1 h).1).2.1

/-- A stored signature is in range with a `v` of 27 or 28, and the encoding gives the transaction back. -/
theorem made_round_trips (h : Made tx) :
    (∀ σ, tx.signature = some σ → InRange σ.r ∧ InRange σ.s ∧ (σ.v = 27 ∨ σ.v = 28)) ∧
      (tx.encoded.length < UInt64.size → (decode tx.encoded).result = .ok tx) :=
  ⟨h.sound, decode_encoded_of_sound h.sound⟩

/-- A signed transaction for chain 1 of 30 bytes, which has `r = s = 1`. -/
def small : Transaction :=
  { nonce := 0, gasPrice := 0, gasLimit := 0, recipient := ⟨Vector.replicate 20 0x35⟩, value := 0,
    data := [], chainId := some 1, signature := some ⟨1, 1, 27⟩ }

theorem encoded_small :
    small.encoded = [0xdd, 0x80, 0x80, 0x80, 0x94] ++ List.replicate 20 0x35 ++
      [0x80, 0x80, 0x25, 0x01, 0x01] := by decide

theorem small_sound : small.Sound := by
  intro σ hσ
  cases hσ
  decide

theorem small_round_trips :
    Made small ∧ small.encoded.length < UInt64.size ∧ (decode small.encoded).result = .ok small := by
  have hsize : small.encoded.length < UInt64.size := by
    rw [encoded_small]
    decide
  have hmade : Made small := .read _ _ (decode_encoded_of_sound small_sound hsize)
  exact ⟨hmade, hsize, (made_round_trips hmade).2 hsize⟩

theorem events_decode (raw : Bytes) :
    (decode raw).events = match (decode raw).result with
      | .ok tx => if tx.isSigned then [.decodedTransaction tx.hash tx.chainId] else []
      | .error _ => [] := by
  rw [result_decode, decode_eq, Reporting.events_bind, Reporting.events_silent, Reporting.result_silent,
    List.nil_append]
  cases parse raw with
  | ok tx => exact events_report tx
  | error e => rfl

/-- What is read from bytes is written as the same bytes, so that no other bytes are read as it and
its hash is theirs. That hash is reported, once, where the transaction is signed. -/
theorem decode_is_faithful (raw : Bytes) :
    match (decode raw).result with
    | .ok tx =>
      tx.encoded = raw ∧ tx.hash = Keccak.digest256 raw ∧
        (∀ other, (decode other).result = .ok tx → other = raw) ∧
        (decode raw).events.map (fun e => (e.message, e.fields)) =
          if tx.isSigned then
            [("decoded signed transaction",
              [("hash", Hex.encode (Keccak.digest256 raw).toList), ("chain_id", Event.chainText tx.chainId)])]
          else []
    | .error _ => (decode raw).events = [] := by
  rw [events_decode]
  cases h : (decode raw).result with
  | error e => rfl
  | ok tx =>
    obtain ⟨hraw, -, -⟩ := decode_eq_ok.1 h
    have hhash : tx.hash = Keccak.digest256 raw := by rw [hash, hraw]
    refine ⟨hraw.symm, hhash, fun other hother => ?_, ?_⟩
    · rw [hraw, (decode_eq_ok.1 hother).1]
    · dsimp only
      cases tx.isSigned with
      | false => rfl
      | true => rw [hhash]; rfl

theorem small_is_reported :
    (decode small.encoded).result = .ok small ∧ (decode small.encoded).events.length = 1 := by
  have hread := decode_encoded_of_sound small_sound (by rw [encoded_small]; decide)
  have hfaithful := decode_is_faithful small.encoded
  rw [hread] at hfaithful
  obtain ⟨-, -, -, hevents⟩ := hfaithful
  refine ⟨hread, ?_⟩
  rw [← List.length_map, hevents]
  rfl

end Wallet.Transaction
