import Wallet.Event
import Wallet.Transaction.ReplayProtection

/-! Transactions and their encoding. A list of six fields is followed by `v`, `r` and `s` of the
signature; by the chain id and two zeros where the transaction is unsigned and meant for a chain; and
by nothing where it is unsigned and legacy. No valid signature has `r = s = 0`, which tells the first
two apart. -/

namespace Wallet

structure Transaction where
  nonce : Word
  gasPrice : Word
  gasLimit : Word
  recipient : Address
  value : Word
  data : Bytes
  chainId : Option UInt64
  signature : Option Signature
  deriving DecidableEq, Repr

namespace Transaction

open Rlp (Encoder Decoder)

def isSigned (tx : Transaction) : Bool := tx.signature.isSome

/-- The `v` that is written, if there is a signature. -/
def v (tx : Transaction) : Option Word := tx.signature.map fun σ => ReplayProtection.fold σ.v tx.chainId

/-- The six fields that every shape begins with. -/
def writeBody (tx : Transaction) (e : Encoder) : Encoder :=
  e.write tx.nonce |>.write tx.gasPrice |>.write tx.gasLimit |>.write tx.recipient |>.write tx.value
    |>.write tx.data

/-- The bytes that are signed. -/
def signingPayload (tx : Transaction) : Bytes :=
  (Encoder.empty.writeListWith fun e =>
    match tx.chainId with
    | none => tx.writeBody e
    | some chainId => tx.writeBody e |>.write chainId |>.write (0 : UInt8) |>.write (0 : UInt8)).output

def encoded (tx : Transaction) : Bytes :=
  match tx.signature with
  | none => tx.signingPayload
  | some σ =>
    (Encoder.empty.writeListWith fun e =>
      tx.writeBody e |>.write (ReplayProtection.fold σ.v tx.chainId) |>.write σ.r |>.write σ.s).output

def hash (tx : Transaction) : Digest := Keccak.digest256 tx.encoded

def hashHex (tx : Transaction) : String := Hex.encode tx.hash.toList

/-- The list that makes up the whole input. -/
def readEnvelope : Decoder Bytes := do
  let payload ← Decoder.list
  Decoder.finish
  return payload

/-- The unsigned legacy transaction of six fields. -/
def readBody : Decoder Transaction := do
  let nonce ← Decoder.read Word
  let gasPrice ← Decoder.read Word
  let gasLimit ← Decoder.read Word
  let recipient ← Decoder.read Address
  let value ← Decoder.read Word
  let data ← Decoder.read Bytes
  return { nonce, gasPrice, gasLimit, recipient, value, data, chainId := none, signature := none }

/-- The last three fields, to the end of the input. -/
structure Tail where
  v : Word
  r : Word
  s : Word
  deriving DecidableEq, Repr

def readTail : Decoder (Option Tail) := do
  if ← Decoder.isFinished then return none
  let v ← Decoder.read Word
  let r ← Decoder.read Word
  let s ← Decoder.read Word
  Decoder.finish
  return some ⟨v, r, s⟩

def readFields : Decoder (Transaction × Option Tail) := do
  let body ← readBody
  return (body, ← readTail)

/-- What the last three fields make of a transaction. -/
def withTail (tx : Transaction) (tail : Tail) : Except TransactionError Transaction := do
  if tail.r = 0 ∧ tail.s = 0 then
    if tail.v.toNat < UInt64.size then return { tx with chainId := some (UInt64.ofNat tail.v.toNat) }
    else throw (.chainIdOverflow tail.v)
  else
    let (chainId, v) ← ReplayProtection.split tail.v
    let σ ← (Signature.make tail.r tail.s v).mapError .signature
    return { tx with chainId, signature := some σ }

def parse (raw : Bytes) : Except TransactionError Transaction := do
  let payload ← (readEnvelope.parse raw).mapError .rlp
  let (body, tail) ← (readFields.parse payload).mapError .rlp
  match tail with
  | none => return body
  | some tail => body.withTail tail

/-- Reads a transaction of any shape; a signed one is reported. -/
def decode (raw : Bytes) : Reporting TransactionError Transaction := do
  let tx ← Reporting.silent (parse raw)
  if tx.isSigned then Reporting.emit (.decodedTransaction tx.hash tx.chainId)
  return tx

end Transaction
end Wallet
