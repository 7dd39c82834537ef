import Wallet.Ecdsa.Basic
import Wallet.Key.Error

/-! Signatures: two numbers `r` and `s`, and an indicator `v` that is 27 or 28 where it is known which
of the candidate keys the signature belongs to, and 0 where it is not. -/

namespace Wallet

/-- The part of a signature that an error is about. -/
inductive Component
  | r
  | s
  | both
  deriving DecidableEq, Repr

def Component.name : Component → String
  | .r => "r"
  | .s => "s"
  | .both => "r/s"

inductive SignatureError
  | outOfRange (component : Component)
  | invalidV (v : UInt8)
  | wrongLength (expected actual : Nat)
  | signingFailed
  | recoveryIdNotFound
  | recoveryFailed
  | key (error : KeyError)
  deriving DecidableEq, Repr

def SignatureError.message : SignatureError → String
  | .outOfRange c => s!"signature component {c.name} is outside [1, N-1]"
  | .invalidV v => s!"invalid recovery indicator v = {v}"
  | .wrongLength expected actual => s!"invalid signature length: expected {expected} bytes, got {actual}"
  | .signingFailed => "signing failed"
  | .recoveryIdNotFound => "internal error: no recovery id matches the signing key"
  | .recoveryFailed => "public key recovery failed"
  | .key e => e.message

structure Signature where
  r : Word
  s : Word
  v : UInt8
  deriving DecidableEq, Repr

namespace Signature

/-- Bytes of `r` and of `s`. -/
def scalarSize : Nat := 32

/-- Bytes of the compact form. -/
def size : Nat := 64

/-- Bytes of the recoverable form. -/
def recoverableSize : Nat := 65

/-- The indicator of recovery id 0. -/
def lowestV : UInt8 := 27

/-- Numbers from 1 to the order less 1. -/
def InRange (w : Word) : Prop := w ≠ 0 ∧ w.toNat < Curve.order

instance (w : Word) : Decidable (InRange w) := inferInstanceAs (Decidable (_ ∧ _))

/-- What holds of every signature that is made by the operations below. -/
def Valid (σ : Signature) : Prop := InRange σ.r ∧ InRange σ.s ∧ (σ.v = 0 ∨ σ.v = 27 ∨ σ.v = 28)

instance (σ : Signature) : Decidable σ.Valid := inferInstanceAs (Decidable (_ ∧ _))

/-- The signature of three numbers, which are looked at in the order `r`, `s`, `v`. -/
def make (r s : Word) (v : UInt8) : Except SignatureError Signature :=
  if ¬InRange r then .error (.outOfRange .r)
  else if ¬InRange s then .error (.outOfRange .s)
  else if v ≠ 0 ∧ v ≠ lowestV ∧ v ≠ lowestV + 1 then .error (.invalidV v)
  else .ok ⟨r, s, v⟩

/-- Reads `r` and `s`; the indicator is unknown. -/
def ofBytes (bs : Bytes) : Except SignatureError Signature :=
  if bs.length ≠ size then .error (.wrongLength size bs.length)
  else make (Word.ofBytes (bs.take scalarSize)) (Word.ofBytes (bs.drop scalarSize)) 0

/-- The indicator that the last byte of a recoverable signature means. -/
def indicator? (b : UInt8) : Option UInt8 :=
  if b = 0 ∨ b = 1 then some (b + lowestV) else if b = 27 ∨ b = 28 then some b else none

/-- Reads `r`, `s` and an indicator with or without its offset of 27. -/
def ofRecoverable (bs : Bytes) : Except SignatureError Signature :=
  if bs.length ≠ recoverableSize then .error (.wrongLength recoverableSize bs.length)
  else
    let last := bs.getD size 0
    match indicator? last with
    | none => .error (.invalidV last)
    | some v => (ofBytes (bs.take size)).map fun σ => { σ with v }

def bytes (σ : Signature) : Bytes := σ.r.toBytes ++ σ.s.toBytes

def recoverableBytes? (σ : Signature) : Option Bytes := if σ.v = 0 then none else some (σ.bytes ++ [σ.v])

/-- The indicator without its offset, if it is known. -/
def recoveryByte? (σ : Signature) : Option UInt8 := if σ.v < lowestV then none else some (σ.v - lowestV)

/-- Whether `s` is in the lower half of its range. -/
def isCanonical (σ : Signature) : Bool := σ.s.toNat ≤ Curve.halfOrder

/-- The indicator of the opposite nonce point. -/
def flipped (v : UInt8) : UInt8 := if v = 0 then 0 else if v = lowestV then lowestV + 1 else lowestV

/-- The signature with `s` replaced by the order less `s`. The nonce point turns into its opposite. -/
def twin (σ : Signature) : Signature := ⟨σ.r, BitVec.ofNat 256 Curve.order - σ.s, flipped σ.v⟩

/-- Of a signature and its twin, the canonical one. -/
def toCanonical (σ : Signature) : Signature := if σ.isCanonical then σ else σ.twin

/-- The scalars `r` and `s`. -/
def scalars (σ : Signature) : Except SignatureError (Curve.Scalar × Curve.Scalar) :=
  if InRange σ.r ∧ InRange σ.s then .ok (Curve.Scalar.ofNat σ.r.toNat, Curve.Scalar.ofNat σ.s.toNat)
  else .error (.outOfRange .both)

/-- The signature of two scalars. -/
def ofScalars (r s : Curve.Scalar) (v : UInt8) : Except SignatureError Signature :=
  make (BitVec.ofNat 256 r.val) (BitVec.ofNat 256 s.val) v

end Signature
end Wallet
