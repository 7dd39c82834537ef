import Wallet.Rlp.Decoder
import Wallet.Rlp.Encoder

/-! The readers, and the header of an item, on a machine that stops where its words do not suffice. Its cursor is
a whole buffer and a position in it. Sums, differences, shifts and conversions are computed without a bound and
then have to fit the word they are kept in; a slice, and every position that is moved to, has to lie in the
buffer. What does not is a trap, which is no error of the input and which no reader catches. -/

namespace Wallet.Rlp

/-- A result that its word does not hold, or a range that the buffer does not have. -/
inductive Trap
  | inexact (value : Int)
  | outOfBounds (start stop length : Nat)
  deriving DecidableEq, Repr

/-- The machine ends early if an input is refused, or in a trap. -/
inductive Halt
  | refused (e : Error)
  | trapped (t : Trap)
  deriving DecidableEq, Repr

structure Cursor where
  data : Bytes
  position : UInt64
  deriving DecidableEq, Repr

namespace Exact

/-- A result as a word of a type that holds the numbers below `size`. -/
def fit {β : Type} (size : Nat) (ofNat : Nat → β) (n : Int) : Except Trap β :=
  if 0 ≤ n ∧ n < size then .ok (ofNat n.toNat) else .error (.inexact n)

/-- Positions and lengths are counted in words of 64 bits. -/
def count (n : Int) : Except Trap UInt64 := fit UInt64.size UInt64.ofNat n

def octet (n : Int) : Except Trap UInt8 := fit UInt8.size UInt8.ofNat n

def slice (data : Bytes) (start stop : UInt64) : Except Trap Bytes :=
  if start ≤ stop ∧ stop.toNat ≤ data.length then .ok ((data.take stop.toNat).drop start.toNat)
  else .error (.outOfBounds start.toNat stop.toNat data.length)

/-- The number that some bytes write, one byte shifted in after the other. -/
def joined (digits : Bytes) : Except Trap UInt64 := digits.foldlM (fun n b => count (n.toNat * 256 + b.toNat)) 0

/-- Where the first byte stands that is not zero, or the last one if all are. -/
def firstNonzero (digits : Bytes) : Except Trap UInt64 := do
  let last ← count (digits.length - 1)
  match digits.findIdx? (· != 0) with
  | some i => count i
  | none => return last

/-- The bytes from there on, and how many they are. -/
def significant (digits : Bytes) : Except Trap (UInt64 × Bytes) := do
  let start ← firstNonzero digits
  let width ← count (digits.length - start.toNat)
  return (width, ← slice digits start (← count digits.length))

/-- The lead byte of a payload of `length` bytes, and its length field if it has one. -/
def header (length : UInt64) (short long : UInt8) : Except Trap Bytes :=
  if length.toNat < longFrom then do
    return [← octet (short.toNat + (← octet length.toNat).toNat)]
  else do
    let (width, field) ← significant (Bytes.ofNat 8 length.toNat)
    return (← octet (long.toNat + (← octet width.toNat).toNat)) :: field

abbrev Reader := EStateM Halt Cursor

namespace Reader

variable {α : Type}

def exactly (x : Except Trap α) : Reader α := fun c =>
  match x with
  | .ok a => .ok a c
  | .error t => .error (.trapped t) c

def rejectIf (p : Prop) [Decidable p] (e : Error) : Reader Unit := if p then throw (.refused e) else pure ()

/-- Runs a reader and sets the position back if it ends early. -/
def atomically (x : Reader α) : Reader α := fun c =>
  match x c with
  | .ok a d => .ok a d
  | .error h d => .error h { d with position := c.position }

/-- The outcome of a reader, handed to whoever called it; a trap is not. -/
def attempt (x : Reader α) : Reader (Except Error α) := fun c =>
  match x c with
  | .ok a d => .ok (.ok a) d
  | .error (.refused e) d => .ok (.error e) d
  | .error (.trapped t) d => .error (.trapped t) d

def remaining : Reader UInt64 := do
  let c ← get
  exactly (count (c.data.length - c.position.toNat))

def finish : Reader Unit := do
  let left ← remaining
  rejectIf (left ≠ 0) (.trailingBytes left.toNat)

def peek : Reader ItemKind := do
  let c ← get
  match c.data[c.position.toNat]? with
  | none => throw (.refused (.endOfInput 0 1))
  | some lead => return ItemKind.classify lead

/-- Moves on by some bytes, but not beyond the end. -/
def advance (n : UInt64) : Reader Unit := do
  let c ← get
  let position ← exactly (count (c.position.toNat + n.toNat))
  if position.toNat ≤ c.data.length then set { c with position := position }
  else throw (.trapped (.outOfBounds c.position.toNat position.toNat c.data.length))

def byte : Reader UInt8 := do
  let c ← get
  match c.data[c.position.toNat]? with
  | none => throw (.refused (.endOfInput 0 1))
  | some b =>
    advance 1
    return b

/-- The byte that was read last, as a string. -/
def previous : Reader Bytes := do
  let c ← get
  let start ← exactly (count (c.position.toNat - 1))
  exactly (slice c.data start c.position)

def take (n : UInt64) : Reader Bytes := do
  let available ← remaining
  rejectIf (available < n) (.endOfInput available.toNat n.toNat)
  let c ← get
  let stop ← exactly (count (c.position.toNat + n.toNat))
  let taken ← exactly (slice c.data c.position stop)
  advance n
  return taken

/-- What the lead byte of a class tells besides the class. -/
def above (base lead : UInt8) : Reader UInt8 := exactly (octet (lead.toNat - base.toNat))

def longLength (width : UInt8) : Reader UInt64 := do
  rejectIf (8 < width) (.lengthTooWide width.toNat)
  let field ← take width.toUInt64
  rejectIf (field.head? = some 0) (.nonCanonical .lengthLeadingZero)
  let length ← exactly (joined field)
  rejectIf (length.toNat < longFrom) (.nonCanonical .longFormTooShort)
  return length

def stringPayload : Reader Bytes := do
  let lead ← byte
  match ItemKind.classify lead with
  | .singleByte => previous
  | .empty => return []
  | .shortString =>
    let payload ← take (← above shortString lead).toUInt64
    rejectIf (isBare payload) (.nonCanonical .prefixedByte)
    return payload
  | .longString => take (← longLength (← above longString lead))
  | .shortList => throw (.refused (.foundList lead))
  | .longList => throw (.refused (.foundList lead))

def listPayload : Reader Bytes := do
  let lead ← byte
  match ItemKind.classify lead with
  | .shortList => take (← above shortList lead).toUInt64
  | .longList => take (← longLength (← above longList lead))
  | _ => throw (.refused (.foundString lead))

def digits (capacity : Nat) : Reader Bytes := do
  let payload ← stringPayload
  rejectIf (capacity < payload.length) (.tooWide payload.length capacity)
  rejectIf (payload.head? = some 0) (.nonCanonical .integerLeadingZero)
  return payload

def bytes : Reader Bytes := atomically stringPayload

def list : Reader Bytes := atomically listPayload

def array (n : Nat) : Reader (Vector UInt8 n) := atomically do
  let payload ← stringPayload
  if h : payload.length = n then return payload.toVector h
  else throw (.refused (.wrongLength n payload.length))

def text : Reader String := atomically do
  let payload ← stringPayload
  match Text.ofUtf8? payload with
  | some s => return s
  | none => throw (.refused .invalidText)

def unsigned (width : Nat) : Reader UInt64 := atomically do exactly (joined (← digits width))

/-- A number of at most `width` bytes in a type that holds the numbers below `size`. -/
def narrowed {β : Type} (size : Nat) (ofNat : Nat → β) (width : Nat) : Reader β := do
  exactly (fit size ofNat (← unsigned width).toNat)

def word : Reader Word := atomically do
  exactly (fit Word.count (BitVec.ofNat 256) (← digits 32).toNat)

end Reader
end Exact
end Wallet.Rlp
