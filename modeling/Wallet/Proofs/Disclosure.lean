import Wallet.Key.Generator
import Wallet.Proofs.Transaction.RoundTrip
import Wallet.Seal
import Wallet.Transaction.Sender

/-! The events of an operation tell nothing of what is secret. A view of an operation is what its events show:
values that are public before it or in its outcome. Each operation emits the events of its view
(`Operation.events_run`), also where it fails half way, and so does a session, which chooses its operations by what
the ones before have returned. Two sessions with the same views then emit the same events, whatever private keys,
random bytes and texts they work on. Main statement: `events_are_public`. -/

namespace Wallet

/-! Views -/

/-- How signing ended: with a signature, at an indicator that does not exist, without a recovery id that gives back
the key, or before one was looked for. -/
inductive Ending
  | signed (v : UInt8)
  | refused (v : UInt8)
  | unmatched (key : PublicKey)
  | failed
  deriving DecidableEq, Repr

namespace Ending

def ofError (key : PublicKey) : SignatureError → Ending
  | .invalidV v => .refused v
  | .recoveryIdNotFound => .unmatched key
  | _ => .failed

/-- The ending of a signature under a public key. -/
def ofOutcome (key : PublicKey) : Except SignatureError Signature → Ending
  | .ok σ => .signed σ.v
  | .error e => ofError key e

/-- The ending of a transaction's signature under a public key. No transaction comes back unsigned. -/
def ofTransaction (key : PublicKey) : Except TransactionError (Option Signature) → Ending
  | .ok (some σ) => .signed σ.v
  | .error (.signature e) => ofError key e
  | _ => .failed

def events : Ending → List Event
  | .signed v | .refused v => [.recoveryIdSelected (v - Signature.lowestV)]
  | .unmatched key => [.recoveryIdMissing key]
  | .failed => []

end Ending

/-- What the events of an operation show. -/
inductive View
  | nothing
  | keyPair (key : PublicKey)
  | check (s : Word)
  | signing (ending : Ending)
  | transaction (nonce : Word) (recipient : Address) (chainId : Option UInt64) (ending : Ending)
  | mismatch (length : Nat)
  | reading (result : Except TransactionError Transaction)
  | logging (format : Log.Format)
  deriving DecidableEq, Repr

def View.events : View → List Event
  | .nothing => []
  | .keyPair key => [.generatedKeyPair key]
  | .check s => if s.toNat ≤ Curve.halfOrder then [] else [.nonCanonicalSignature s]
  | .signing ending => ending.events
  | .transaction nonce recipient chainId ending =>
    ending.events ++ match ending with
      | .signed v => [.signedTransaction nonce recipient chainId v]
      | _ => []
  | .mismatch length => [.tagMismatch length]
  | .reading result => match result with
    | .ok tx => if tx.isSigned then [.decodedTransaction tx.hash tx.chainId] else []
    | .error _ => []
  | .logging format => [.loggingStarted format]

/-- What opening a blob of some length shows. -/
def View.ofOpening (length : Nat) : Except SealError Bytes → View
  | .error .tagMismatch => .mismatch length
  | _ => .nothing

/-! The events of one operation -/

theorem KeyGenerator.events_generate (g : KeyGenerator) :
    g.generate.events = [.generatedKeyPair g.generate.value.1.publicKey] := rfl

theorem events_verifyMessage (hash : DomainHash) (key : PublicKey) (message : Bytes) (σ : Signature) :
    (verifyMessage hash key message σ).events = (View.check σ.s).events := by
  unfold verifyMessage View.events Signature.isCanonical
  by_cases hlow : σ.s.toNat ≤ Curve.halfOrder
  · simp only [hlow, decide_true, Bool.not_true, Bool.false_eq_true, if_false, if_true]
    cases σ.scalars <;> rfl
  · simp only [hlow, decide_false, Bool.not_false, if_false, if_true]
    rfl

namespace Signer

variable {signer : Signer} {digest : Digest}

open Signature (InRange)

/-- Whether there is a signature or its indicator is refused, the outcome shows the same id. -/
theorem events_ofOutcome_make {r s : Word} (hr : InRange r) (hs : InRange s) (key : PublicKey) (v : UInt8) :
    (Ending.ofOutcome key (Signature.make r s v)).events = [.recoveryIdSelected (v - Signature.lowestV)] := by
  unfold Signature.make
  rw [if_neg (not_not.2 hr), if_neg (not_not.2 hs)]
  split <;> rfl

theorem events_stamp {τ : Signature} (hr : InRange τ.r) (hs : InRange τ.s) (found : Option Ecdsa.RecoveryId) :
    (signer.stamp τ found).events =
      (Ending.ofOutcome signer.pair.publicKey (signer.stamp τ found).result).events := by
  cases found with
  | none => rfl
  | some id =>
    have hbyte : id.toByte + Signature.lowestV - Signature.lowestV = id.toByte := UInt8.add_sub_cancel _ _
    have hevents : (signer.stamp τ (some id)).events = [.recoveryIdSelected id.toByte] := rfl
    rw [hevents, result_stamp, events_ofOutcome_make hr hs, hbyte]

theorem events_signDigest (signer : Signer) (digest : Digest) :
    (signer.signDigest digest).events =
      (Ending.ofOutcome signer.pair.publicKey (signer.signDigest digest).result).events := by
  rw [signDigest_eq]
  generalize Ecdsa.sign signer.pair.privateKey.scalar digest = drawn
  rcases drawn with _ | ⟨r, s⟩
  · rfl
  · simp only [complete, Signature.ofScalars]
    rcases Signature.make_unknown (BitVec.ofNat 256 r.val) (BitVec.ofNat 256 s.val) with hraw | ⟨c, hraw⟩
    · rw [hraw, Outcome.silent_ok_bind]
      rcases Signature.scalars_cases (Signature.toCanonical ⟨BitVec.ofNat 256 r.val, BitVec.ofNat 256 s.val, 0⟩)
        with ⟨hr, hs, rs, hscalars⟩ | hscalars
      · rw [hscalars, Outcome.silent_ok_bind]
        exact events_stamp hr hs _
      · rw [hscalars, Outcome.silent_error_bind]
        rfl
    · rw [hraw, Outcome.silent_error_bind]
      rfl

end Signer

namespace Seal

theorem events_decrypt (recipient : PrivateKey) (blob : Bytes) :
    (decrypt recipient blob).events = (View.ofOpening blob.length (decrypt recipient blob).result).events := by
  unfold decrypt
  dsimp only
  split
  · rfl
  · split
    · rfl
    · cases PublicKey.ofBytes (List.take Curve.Form.uncompressed.size blob) with
      | error e => rfl
      | ok sender =>
        rw [Except.mapError, Outcome.silent_ok_bind]
        split
        · rfl
        · unfold applyStream
          split <;> rfl

end Seal

namespace Transaction

/-- Success is reported behind the events of the signer, failure is not. -/
theorem events_reportSigned (tx : Transaction) {key : PublicKey} {x : Reporting SignatureError Signature}
    (hx : x.events = (Ending.ofOutcome key x.result).events) :
    Reporting.events (x.adapt .signature >>= tx.reportSigned) =
      (View.transaction tx.nonce tx.recipient tx.chainId
        (.ofTransaction key ((Reporting.result (x.adapt .signature >>= tx.reportSigned)).map some))).events := by
  rw [Reporting.events_bind, Reporting.result_bind, Reporting.events_adapt, Reporting.result_adapt, hx]
  cases x.result with
  | error e => cases e <;> rfl
  | ok σ => rfl

theorem events_sign (tx : Transaction) (pair : KeyPair) :
    (tx.sign pair).events =
      (View.transaction tx.nonce tx.recipient tx.chainId
        (.ofTransaction pair.publicKey ((tx.sign pair).result.map some))).events := by
  have hsigned := Signer.events_signDigest { pair } (Keccak.digest256 tx.signingPayload)
  rw [sign_eq]
  exact events_reportSigned tx hsigned

theorem Addressed.events_sign (a : Addressed) (pair : KeyPair) :
    (a.sign pair).events =
      (View.transaction a.transaction.nonce a.transaction.recipient a.transaction.chainId
        (.ofTransaction pair.publicKey ((a.sign pair).result.map (·.transaction.signature)))).events := by
  have hmap (r : Except TransactionError Signature) :
      (r.map fun σ => Signed.mk { a.transaction with signature := some σ }).map (·.transaction.signature) =
        r.map some := by
    cases r <;> rfl
  rw [Addressed.sign_eq, Outcome.events_bind_pure, Outcome.result_bind_pure, hmap, Transaction.events_sign]

theorem Signed.events_decode (raw : Bytes) :
    (Signed.decode raw).events = (View.reading ((Signed.decode raw).result.map Signed.transaction)).events := by
  rw [Signed.decode_eq, Reporting.events_bind, Reporting.result_bind, Transaction.events_decode]
  cases (Transaction.decode raw).result with
  | error e => rfl
  | ok tx =>
    cases hsigned : tx.isSigned <;>
      simp [requireSigned, View.events, Except.map, Outcome.ok_bind, hsigned]

end Transaction

/-! Operations -/

/-- Operations without events, by the type of what they return: sealing, recovery, and all that reads, derives or
writes keys and addresses. -/
inductive Quiet : Type → Type
  | encrypt (sender : PrivateKey) (recipient : PublicKey) (plaintext : Bytes) (tape : Tape) :
    Quiet (Except SealError Bytes × Tape)
  | encryptEphemeral (recipient : PublicKey) (plaintext : Bytes) (tape : Tape) : Quiet (Except SealError Bytes × Tape)
  | recoverPublicKey (digest : Digest) (σ : Signature) : Quiet (Except SignatureError PublicKey)
  | recoverSender (tx : Transaction) : Quiet (Except TransactionError Address)
  | verifySender (tx : Transaction) (expected : Address) : Quiet (Except TransactionError Unit)
  | privateKeyOfBytes (bs : Bytes) : Quiet (Except KeyError PrivateKey)
  | privateKeyOfWord (w : Word) : Quiet (Except KeyError PrivateKey)
  | privateKeyOfHex (text : String) : Quiet (Except KeyError PrivateKey)
  | privateKeyOfDecimal (text : String) : Quiet (Except KeyError PrivateKey)
  | privateKeyBytes (key : PrivateKey) : Quiet Bytes
  | privateKeyWord (key : PrivateKey) : Quiet Word
  | privateKeyHex (key : PrivateKey) : Quiet String
  | publicKeyOfBytes (bs : Bytes) : Quiet (Except KeyError PublicKey)
  | publicKeyOfHex (text : String) : Quiet (Except KeyError PublicKey)
  | publicKeyBytes (key : PublicKey) : Quiet Bytes
  | publicKeyHex (key : PublicKey) : Quiet String
  | compressed (key : PublicKey) : Quiet PublicKey
  | uncompressed (key : PublicKey) : Quiet PublicKey
  | derivePublicKey (g : KeyGenerator) (key : PrivateKey) : Quiet PublicKey
  | pairOfKeys (privateKey : PrivateKey) (publicKey : PublicKey) : Quiet (Except KeyError KeyPair)
  | pairOfPrivate (key : PrivateKey) : Quiet KeyPair
  | address (g : KeyGenerator) (key : PublicKey) : Quiet Address
  | addressOfBytes (bs : Bytes) : Quiet (Except AddressError Address)
  | addressOfHex (text : String) : Quiet (Except AddressError Address)
  | addressHex (a : Address) : Quiet String

def Quiet.value : {α : Type} → Quiet α → α
  | _, encrypt sender recipient plaintext tape => Seal.encrypt sender recipient plaintext tape
  | _, encryptEphemeral recipient plaintext tape => Seal.encryptEphemeral recipient plaintext tape
  | _, recoverPublicKey digest σ => Wallet.recoverPublicKey digest σ
  | _, recoverSender tx => tx.recoverSender
  | _, verifySender tx expected => tx.verify expected
  | _, privateKeyOfBytes bs => PrivateKey.ofBytes bs
  | _, privateKeyOfWord w => PrivateKey.ofWord w
  | _, privateKeyOfHex text => PrivateKey.ofHex text
  | _, privateKeyOfDecimal text => PrivateKey.ofDecimal text
  | _, privateKeyBytes key => key.bytes
  | _, privateKeyWord key => key.word
  | _, privateKeyHex key => key.hex
  | _, publicKeyOfBytes bs => PublicKey.ofBytes bs
  | _, publicKeyOfHex text => PublicKey.ofHex text
  | _, publicKeyBytes key => key.bytes
  | _, publicKeyHex key => key.hex
  | _, compressed key => key.compressed
  | _, uncompressed key => key.uncompressed
  | _, derivePublicKey g key => g.derivePublicKey key
  | _, pairOfKeys privateKey publicKey => KeyPair.ofKeys privateKey publicKey
  | _, pairOfPrivate key => KeyPair.ofPrivate key
  | _, address g key => g.address key
  | _, addressOfBytes bs => Address.ofBytes bs
  | _, addressOfHex text => Address.ofHex text
  | _, addressHex a => a.hex

/-- The operations of the library with all that goes into them. -/
inductive Operation : Type → Type 1
  | generate (g : KeyGenerator) : Operation (KeyPair × KeyGenerator)
  | signDigest (signer : Signer) (digest : Digest) : Operation (Except SignatureError Signature)
  | sign (signer : Signer) (message : Bytes) : Operation (Except SignatureError Signature)
  | verifyOwn (signer : Signer) (message : Bytes) (σ : Signature) : Operation Bool
  | verify (verifier : Verifier) (message : Bytes) (σ : Signature) : Operation Bool
  | decrypt (recipient : PrivateKey) (blob : Bytes) : Operation (Except SealError Bytes)
  | signTransaction (tx : Transaction) (pair : KeyPair) : Operation (Except TransactionError Signature)
  | signAddressed (a : Transaction.Addressed) (pair : KeyPair) :
    Operation (Except TransactionError Transaction.Signed)
  | decode (raw : Bytes) : Operation (Except TransactionError Transaction)
  | decodeSigned (raw : Bytes) : Operation (Except TransactionError Transaction.Signed)
  | startLog (current : Option Log.Subscriber) (offered : Log.Subscriber) :
    Operation (Option Log.Subscriber × Bool)
  | quiet {α : Type} (q : Quiet α) : Operation α

namespace Operation

def run : {α : Type} → Operation α → Traced α
  | _, generate g => g.generate
  | _, signDigest signer digest => (signer.signDigest digest).run
  | _, sign signer message => (signer.sign message).run
  | _, verifyOwn signer message σ => signer.verify message σ
  | _, verify verifier message σ => verifier.verify message σ
  | _, decrypt recipient blob => (Seal.decrypt recipient blob).run
  | _, signTransaction tx pair => (tx.sign pair).run
  | _, signAddressed a pair => (a.sign pair).run
  | _, decode raw => (Transaction.decode raw).run
  | _, decodeSigned raw => (Transaction.Signed.decode raw).run
  | _, startLog current offered => Log.start current offered
  | _, quiet q => pure q.value

/-- What the events of an operation show, given its outcome. -/
def view : {α : Type} → Operation α → α → View
  | _, generate _, outcome => .keyPair outcome.1.publicKey
  | _, signDigest signer _, outcome => .signing (.ofOutcome signer.pair.publicKey outcome)
  | _, sign signer _, outcome => .signing (.ofOutcome signer.pair.publicKey outcome)
  | _, verifyOwn _ _ σ, _ => .check σ.s
  | _, verify _ _ σ, _ => .check σ.s
  | _, decrypt _ blob, outcome => .ofOpening blob.length outcome
  | _, signTransaction tx pair, outcome =>
    .transaction tx.nonce tx.recipient tx.chainId (.ofTransaction pair.publicKey (outcome.map some))
  | _, signAddressed a pair, outcome =>
    .transaction a.transaction.nonce a.transaction.recipient a.transaction.chainId
      (.ofTransaction pair.publicKey (outcome.map (·.transaction.signature)))
  | _, decode _, outcome => .reading outcome
  | _, decodeSigned _, outcome => .reading (outcome.map Transaction.Signed.transaction)
  | _, startLog _ offered, outcome => if outcome.2 then .logging offered.format else .nothing
  | _, quiet _, _ => .nothing

variable {α : Type}

theorem events_run (op : Operation α) : op.run.events = (op.view op.run.value).events := by
  -- by rewriting: to unfold both sides until they agree would be to draw a nonce
  cases op <;> rw [run, view] <;> try rw [Outcome.run_events, Outcome.run_value]
  case generate g => exact g.events_generate
  case signDigest signer digest => exact signer.events_signDigest digest
  case sign signer message => exact signer.events_signDigest (signer.hash message)
  case verifyOwn signer message σ => exact events_verifyMessage signer.hash signer.pair.publicKey message σ
  case verify verifier message σ => exact events_verifyMessage verifier.hash verifier.key message σ
  case decrypt recipient blob => exact Seal.events_decrypt recipient blob
  case signTransaction tx pair => exact tx.events_sign pair
  case signAddressed a pair => exact a.events_sign pair
  case decode raw => exact Transaction.events_decode raw
  case decodeSigned raw => exact Transaction.Signed.events_decode raw
  case startLog current offered => cases current <;> rfl
  case quiet q => rfl

end Operation

/-! Sessions -/

/-- What is done with the library: operations one after the other, each of them chosen by what the ones before have
returned. -/
inductive Session
  | stop
  | call {α : Type} (op : Operation α) (next : α → Session)

namespace Session

def run : Session → Traced Unit
  | stop => pure ()
  | call op next => do
    let outcome ← op.run
    (next outcome).run

def views : Session → List View
  | stop => []
  | call op next => op.view op.run.value :: (next op.run.value).views

theorem events_run (session : Session) : session.run.events = session.views.flatMap View.events := by
  induction session with
  | stop => rfl
  | call op next ih => rw [run, Traced.events_bind, op.events_run, ih, views, List.flatMap_cons]

end Session

/-- Each operation emits the events of its view, and two sessions that show the same views emit the same events in
the same order. -/
theorem events_are_public :
    (∀ {α : Type} (op : Operation α), op.run.events = (op.view op.run.value).events) ∧
      ∀ a b : Session, a.views = b.views → a.run.events = b.run.events := by
  refine ⟨Operation.events_run, fun a b h => ?_⟩
  rw [a.events_run, b.events_run, h]

/-- A point, a counter and a tag that does not fit them, with no text between. -/
def forged : Bytes := Curve.Point.generator.encode .uncompressed ++ List.replicate 48 0

/-- Seals a text to oneself and then opens what is not a seal. -/
def probe (key : PrivateKey) (plaintext : Bytes) (tape : Tape) : Session :=
  .call (.quiet (.encrypt key (KeyPair.ofPrivate key).publicKey plaintext tape)) fun _ =>
    .call (.decrypt key forged) fun _ => .stop

theorem views_probe {key : PrivateKey} (h : (Seal.decrypt key forged).result = .error .tagMismatch)
    (plaintext : Bytes) (tape : Tape) : (probe key plaintext tape).views = [.nothing, .mismatch 113] := by
  have hlength : forged.length = 113 := by decide +kernel
  have hview : (Operation.decrypt key forged).view (Operation.decrypt key forged).run.value = .mismatch 113 := by
    rw [Operation.view, Operation.run, Outcome.run_value, h, hlength, View.ofOpening]
  rw [probe, Session.views, Session.views, Session.views, hview, Operation.view]

theorem probes_alike :
    let one := probe ⟨1, by decide⟩ [1, 2, 3] (.ofBytes [])
    let two := probe ⟨2, by decide⟩ [4, 5] (.ofBytes [6, 7, 8])
    one.views = two.views ∧ one.run.events = two.run.events ∧ two.run.events = [.tagMismatch 113] := by
  intro one two
  have hone : one.views = [.nothing, .mismatch 113] := views_probe (by decide +kernel) _ _
  have htwo : two.views = [.nothing, .mismatch 113] := views_probe (by decide +kernel) _ _
  have hviews : one.views = two.views := hone.trans htwo.symm
  refine ⟨hviews, events_are_public.2 one two hviews, ?_⟩
  rw [two.events_run, htwo]
  rfl

end Wallet
