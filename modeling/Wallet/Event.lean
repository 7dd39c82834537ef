import Wallet.Address
import Wallet.Log

/-! Events: what the operations report while they run. An event holds public values only. -/

namespace Wallet

inductive Event
  | generatedKeyPair (publicKey : PublicKey)
  | recoveryIdSelected (id : UInt8)
  | recoveryIdMissing (publicKey : PublicKey)
  | nonCanonicalSignature (s : Word)
  | tagMismatch (length : Nat)
  | signedTransaction (nonce : Word) (recipient : Address) (chainId : Option UInt64) (v : UInt8)
  | decodedTransaction (hash : Digest) (chainId : Option UInt64)
  | loggingStarted (format : Log.Format)
  deriving DecidableEq, Repr

namespace Event

inductive Level
  | debug
  | info
  | error
  deriving DecidableEq, Repr

def level : Event → Level
  | recoveryIdMissing _ => .error
  | loggingStarted _ => .info
  | _ => .debug

def message : Event → String
  | generatedKeyPair _ => "generated key pair"
  | recoveryIdSelected _ => "recovery id selected"
  | recoveryIdMissing _ => "no recovery id reproduced the signing key"
  | nonCanonicalSignature _ => "rejecting non-canonical signature"
  | tagMismatch _ => "ecies tag mismatch"
  | signedTransaction .. => "signed transaction"
  | decodedTransaction .. => "decoded signed transaction"
  | loggingStarted format => s!"logging initialized (format={format.name})"

def chainText : Option UInt64 → String
  | none => "None"
  | some id => s!"Some({id})"

/-- The values of an event by name, as texts. -/
def fields : Event → List (String × String)
  | generatedKeyPair key => [("public_key", key.hex)]
  | recoveryIdSelected id => [("recovery_id", toString id)]
  | recoveryIdMissing key => [("public_key", key.hex)]
  | nonCanonicalSignature s => [("s", s.decimal)]
  | tagMismatch length => [("len", toString length)]
  | signedTransaction nonce recipient chainId v =>
    [("nonce", nonce.decimal), ("to", recipient.hex), ("chain_id", chainText chainId), ("v", toString v)]
  | decodedTransaction hash chainId => [("hash", Hex.encode hash.toList), ("chain_id", chainText chainId)]
  | loggingStarted _ => []

end Event

/-- A value with the events emitted while it was computed, in order. -/
structure Traced (α : Type) where
  value : α
  events : List Event
  deriving DecidableEq, Repr

namespace Traced

instance : Monad Traced where
  pure a := ⟨a, []⟩
  bind x f := ⟨(f x.value).value, x.events ++ (f x.value).events⟩

instance : LawfulMonad Traced := LawfulMonad.mk' Traced
  (fun x => by cases x; simp [Functor.map])
  (fun _ _ => by simp [bind, pure])
  (fun _ _ _ => by simp [bind, List.append_assoc])

def emit (e : Event) : Traced Unit := ⟨(), [e]⟩

variable {α β : Type}

@[simp]
theorem value_pure (a : α) : (pure a : Traced α).value = a := rfl

@[simp]
theorem events_pure (a : α) : (pure a : Traced α).events = [] := rfl

@[simp]
theorem value_bind (x : Traced α) (f : α → Traced β) : (x >>= f).value = (f x.value).value := rfl

@[simp]
theorem events_bind (x : Traced α) (f : α → Traced β) :
    (x >>= f).events = x.events ++ (f x.value).events := rfl

@[simp]
theorem events_emit (e : Event) : (emit e).events = [e] := rfl

end Traced

/-- An operation that may fail and reports events, those before a failure included. -/
abbrev Reporting (ε α : Type) := ExceptT ε Traced α

namespace Reporting

variable {ε ε' α β : Type}

def result (x : Reporting ε α) : Except ε α := x.run.value

def events (x : Reporting ε α) : List Event := x.run.events

def emit (e : Event) : Reporting ε Unit := ExceptT.lift (Traced.emit e)

/-- An operation that reports nothing. -/
def silent (x : Except ε α) : Reporting ε α := ExceptT.mk (pure x)

@[simp]
theorem result_pure (a : α) : result (pure a : Reporting ε α) = .ok a := rfl

@[simp]
theorem events_pure (a : α) : events (pure a : Reporting ε α) = [] := rfl

@[simp]
theorem result_throw (e : ε) : result (throw e : Reporting ε α) = .error e := rfl

@[simp]
theorem events_throw (e : ε) : events (throw e : Reporting ε α) = [] := rfl

@[simp]
theorem result_silent (x : Except ε α) : (silent x).result = x := rfl

@[simp]
theorem events_silent (x : Except ε α) : (silent x).events = [] := rfl

@[simp]
theorem result_emit (e : Event) : (emit e : Reporting ε Unit).result = .ok () := rfl

@[simp]
theorem events_emit (e : Event) : (emit e : Reporting ε Unit).events = [e] := rfl

theorem result_bind (x : Reporting ε α) (f : α → Reporting ε β) :
    (x >>= f).result = x.result >>= fun a => (f a).result := by
  rcases x with ⟨_ | a, es⟩ <;> rfl

/-- A failure ends an operation, and the events before it stay. -/
theorem events_bind (x : Reporting ε α) (f : α → Reporting ε β) :
    (x >>= f).events = x.events ++ match x.result with
      | .ok a => (f a).events
      | .error _ => [] := by
  rcases x with ⟨_ | a, es⟩ <;> rfl

@[simp]
theorem result_adapt (g : ε → ε') (x : Reporting ε α) :
    result (ExceptT.adapt g x) = x.result.mapError g := by
  rcases x with ⟨_ | a, es⟩ <;> rfl

@[simp]
theorem events_adapt (g : ε → ε') (x : Reporting ε α) : events (ExceptT.adapt g x) = x.events := by
  exact List.append_nil _

end Reporting

/-- Puts a subscriber in place if there is none, which is reported. -/
def Log.start (current : Option Log.Subscriber) (offered : Log.Subscriber) :
    Traced (Option Log.Subscriber × Bool) := do
  let (subscriber, installed) := Log.install current offered
  if installed then Traced.emit (.loggingStarted offered.format)
  return (subscriber, installed)

end Wallet
