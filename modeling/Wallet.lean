import Wallet.Document
import Wallet.Key.Generator
import Wallet.Network
import Wallet.Rlp.Exact
import Wallet.Rlp.Walk
import Wallet.Seal
import Wallet.Transaction.Draft
import Wallet.Transaction.Sender
import Wallet.Proofs.BigEndian
import Wallet.Proofs.Outcome
import Wallet.Proofs.Rlp.Header
import Wallet.Proofs.Rlp.Canonical
import Wallet.Proofs.Rlp.Typed
import Wallet.Proofs.Rlp.Primitive
import Wallet.Proofs.Rlp.Failure
import Wallet.Proofs.Rlp.Peek
import Wallet.Proofs.Rlp.Truncation
import Wallet.Proofs.Rlp.Width
import Wallet.Proofs.Rlp.Layout
import Wallet.Proofs.Rlp.Ledger
import Wallet.Proofs.Rlp.Exact
import Wallet.Proofs.Rlp.Cursor
import Wallet.Proofs.Rlp.Safety
import Wallet.Proofs.Rlp.Walk
import Wallet.Proofs.Rlp.Framing
import Wallet.Proofs.Text.Digits
import Wallet.Proofs.Text.Hex
import Wallet.Proofs.Text.Decimal
import Wallet.Proofs.Key.Notation
import Wallet.Proofs.Address
import Wallet.Proofs.Curve.Prime
import Wallet.Proofs.Curve.Residue
import Wallet.Proofs.Curve.Field
import Wallet.Proofs.Curve.Scalar
import Wallet.Proofs.Curve.Closure
import Wallet.Proofs.Curve.Encoding
import Wallet.Proofs.Curve.Group
import Wallet.Proofs.Curve.Order
import Wallet.Proofs.Curve.Addition
import Wallet.Proofs.Curve.Lift
import Wallet.Proofs.Ecdsa.Nonce
import Wallet.Proofs.Ecdsa.Equation
import Wallet.Proofs.Ecdsa.Textbook
import Wallet.Proofs.Key
import Wallet.Proofs.Key.Form
import Wallet.Proofs.Signature.Range
import Wallet.Proofs.Signature.Wire
import Wallet.Proofs.Signature.Signing
import Wallet.Proofs.Signature.Twins
import Wallet.Proofs.Signature.Recovery
import Wallet.Proofs.Signature.Acceptance
import Wallet.Proofs.Key.Generator
import Wallet.Proofs.Key.Pair
import Wallet.Proofs.Seal
import Wallet.Proofs.Seal.Binding
import Wallet.Proofs.Transaction.ReplayProtection
import Wallet.Proofs.Transaction.Encoding
import Wallet.Proofs.Transaction.RoundTrip
import Wallet.Proofs.Signature.Origin
import Wallet.Proofs.Transaction.Envelope
import Wallet.Proofs.Transaction.Fields
import Wallet.Proofs.Transaction.Sender
import Wallet.Proofs.Transaction.Verification
import Wallet.Proofs.Transaction.Binding
import Wallet.Proofs.Signature.Agreement
import Wallet.Proofs.Signature.Indicator
import Wallet.Proofs.Signature.Malleability
import Wallet.Proofs.Signature.Meaning
import Wallet.Proofs.Seal.Opening
import Wallet.Proofs.Seal.Draws
import Wallet.Proofs.Disclosure
