import Wallet.Signature.Signer
import Wallet.Transaction.Basic

/-! Transactions made in stages: a draft without a recipient, an addressed one, a signed one. What is
read from bytes as signed leaves through the same last stage. -/

namespace Wallet

namespace Transaction

/-- The signature of a key pair over a transaction; success is reported. -/
def sign (tx : Transaction) (pair : KeyPair) : Reporting TransactionError Signature := do
  let signer : Signer := { pair }
  let σ ← (signer.sign tx.signingPayload).adapt .signature
  Reporting.emit (.signedTransaction tx.nonce tx.recipient tx.chainId σ.v)
  return σ

structure Draft where
  nonce : Word
  gasPrice : Word
  gasLimit : Word
  value : Word
  data : Bytes
  chainId : Option UInt64
  deriving DecidableEq, Repr

structure Addressed where
  transaction : Transaction
  deriving DecidableEq, Repr

structure Signed where
  transaction : Transaction
  deriving DecidableEq, Repr

def Draft.address (d : Draft) (recipient : Address) : Addressed :=
  ⟨{ nonce := d.nonce, gasPrice := d.gasPrice, gasLimit := d.gasLimit, recipient, value := d.value,
     data := d.data, chainId := d.chainId, signature := none }⟩

def Addressed.sign (a : Addressed) (pair : KeyPair) : Reporting TransactionError Signed := do
  let σ ← a.transaction.sign pair
  return ⟨{ a.transaction with signature := some σ }⟩

def Addressed.build (a : Addressed) : Transaction := a.transaction

/-- Reads a transaction that has to be signed. -/
def Signed.decode (raw : Bytes) : Reporting TransactionError Signed := do
  let tx ← Transaction.decode raw
  if !tx.isSigned then throw .missingSignature
  return ⟨tx⟩

def Signed.build (s : Signed) : Transaction := s.transaction

end Transaction
end Wallet
