import Wallet.Rlp.Item
import Wallet.Word

/-! Reading items off the front of a byte string. A reader's state is what is left to read; a read
that fails puts the state back. Only the one encoding of a value is accepted: no header before a
bare byte, no long form where the short one would do, no leading zeros. Main statements:
`bytes_consumes` and `list_consumes`, what a read took and what it left make up the input. -/

namespace Wallet.Rlp

/-- A reader: from what is left of the input to a value, or an error, and what is left then. -/
abbrev Decoder := EStateM Error Bytes

namespace Decoder

/-- Fails with `e` if `c` holds. -/
def rejectIf (c : Prop) [Decidable c] (e : Error) : Decoder Unit := if c then throw e else pure ()

/-- Runs a reader and puts the input back if it fails. -/
def atomically {α : Type} (x : Decoder α) : Decoder α := fun input =>
  match x input with
  | .ok a rest => .ok a rest
  | .error e _ => .error e input

/-- The value that a reader takes from the front of `input`. -/
def parse {α : Type} (x : Decoder α) (input : Bytes) : Except Error α :=
  match x input with
  | .ok a _ => .ok a
  | .error e _ => .error e

/-- How many bytes are left. -/
def remaining : Decoder Nat := fun rest => .ok rest.length rest

def isFinished : Decoder Bool := fun rest => .ok rest.isEmpty rest

/-- Fails if anything is left. -/
def finish : Decoder Unit := fun rest =>
  if rest.isEmpty then .ok () rest else .error (.trailingBytes rest.length) rest

/-- The class of the next item, which is not consumed. -/
def peek : Decoder ItemKind := fun rest =>
  match rest with
  | [] => .error (.endOfInput 0 1) rest
  | lead :: _ => .ok (ItemKind.classify lead) rest

def byte : Decoder UInt8 := fun rest =>
  match rest with
  | [] => .error (.endOfInput 0 1) rest
  | b :: rest => .ok b rest

def take (count : UInt64) : Decoder Bytes := fun rest =>
  let taken := rest.take count.toNat
  if taken.length < count.toNat then .error (.endOfInput rest.length count.toNat) rest
  else .ok taken (rest.drop count.toNat)

/-- The number that at most eight bytes write, shifted together in a machine word. -/
def joined (digits : Bytes) : UInt64 := digits.foldl (fun n b => n <<< 8 ||| b.toUInt64) 0

/-- The length that a field of `width` bytes announces. -/
def longLength (width : UInt8) : Decoder UInt64 := do
  rejectIf (8 < width) (.lengthTooWide width.toNat)
  let field ← take width.toUInt64
  rejectIf (field.head? = some 0) (.nonCanonical .lengthLeadingZero)
  rejectIf ((joined field).toNat < longFrom) (.nonCanonical .longFormTooShort)
  return joined field

/-- The payload of a string item; `bytes` is the reader to use. -/
def stringPayload : Decoder Bytes := do
  let lead ← byte
  match ItemKind.classify lead with
  | .singleByte => return [lead]
  | .empty => return []
  | .shortString =>
    let payload ← take (lead - shortString).toUInt64
    rejectIf (isBare payload) (.nonCanonical .prefixedByte)
    return payload
  | .longString => take (← longLength (lead - longString))
  | .shortList => throw (.foundList lead)
  | .longList => throw (.foundList lead)

/-- The payload of a list item; `list` is the reader to use. -/
def listPayload : Decoder Bytes := do
  let lead ← byte
  match ItemKind.classify lead with
  | .shortList => take (lead - shortList).toUInt64
  | .longList => take (← longLength (lead - longList))
  | _ => throw (.foundString lead)

/-- A number's digits, at most `capacity` of them. -/
def digits (capacity : Nat) : Decoder Bytes := do
  let payload ← stringPayload
  rejectIf (capacity < payload.length) (.tooWide payload.length capacity)
  rejectIf (payload.head? = some 0) (.nonCanonical .integerLeadingZero)
  return payload

/-- A byte string. -/
def bytes : Decoder Bytes := atomically stringPayload

/-- The payload of a list, its items still encoded. -/
def list : Decoder Bytes := atomically listPayload

/-- A byte string of exactly `n` bytes. -/
def array (n : Nat) : Decoder (Vector UInt8 n) := atomically do
  let payload ← stringPayload
  if h : payload.length = n then return payload.toVector h
  else throw (.wrongLength n payload.length)

def text : Decoder String := atomically do
  let payload ← stringPayload
  match Text.ofUtf8? payload with
  | some s => return s
  | none => throw .invalidText

/-- A number of at most `width` bytes, for widths up to eight. -/
def unsigned (width : Nat) : Decoder UInt64 := atomically do return joined (← digits width)

def word : Decoder Word := atomically do return Word.ofBytes (← digits 32)

end Decoder

/-- A value that is read from one item. -/
class Decodable (α : Type) where
  decode : Decoder α

instance : Decodable Bytes := ⟨Decoder.bytes⟩
instance : Decodable String := ⟨Decoder.text⟩
instance : Decodable UInt8 := ⟨UInt64.toUInt8 <$> Decoder.unsigned 1⟩
instance : Decodable UInt16 := ⟨UInt64.toUInt16 <$> Decoder.unsigned 2⟩
instance : Decodable UInt32 := ⟨UInt64.toUInt32 <$> Decoder.unsigned 4⟩
instance : Decodable UInt64 := ⟨Decoder.unsigned 8⟩
instance : Decodable Word := ⟨Decoder.word⟩
instance {n : Nat} : Decodable (Vector UInt8 n) := ⟨Decoder.array n⟩

namespace Decoder

/-- Reads a value; if its reader fails halfway, the input is put back. -/
def read (α : Type) [Decodable α] : Decoder α := atomically Decodable.decode

section Consumed

variable {α β : Type}

theorem bind_eq_ok {x : Decoder α} {f : α → Decoder β} {s t : Bytes} {b : β} :
    (x >>= f) s = .ok b t ↔ ∃ a r, x s = .ok a r ∧ f a r = .ok b t := by
  simp only [bind, EStateM.bind]
  cases h : x s with
  | ok a r => exact ⟨fun h => ⟨a, r, rfl, h⟩, by rintro ⟨_, _, h, h'⟩; cases h; exact h'⟩
  | error e r => exact ⟨nofun, by rintro ⟨_, _, h, _⟩; cases h⟩

theorem pure_eq_ok {a b : α} {s t : Bytes} : (pure a : Decoder α) s = .ok b t ↔ a = b ∧ s = t := by
  simp [pure, EStateM.pure]

theorem throw_ne_ok {e : Error} {b : α} {s t : Bytes} : (throw e : Decoder α) s ≠ .ok b t := nofun

theorem rejectIf_eq_ok {c : Prop} [Decidable c] {e : Error} {u : Unit} {s t : Bytes} :
    rejectIf c e s = .ok u t ↔ ¬c ∧ s = t := by
  unfold rejectIf
  split
  · exact ⟨nofun, fun h => absurd ‹c› h.1⟩
  · simp [pure_eq_ok, *]

theorem atomically_eq_ok {x : Decoder α} {s t : Bytes} {a : α} :
    atomically x s = .ok a t ↔ x s = .ok a t := by
  unfold atomically
  cases h : x s <;> simp

theorem byte_eq_ok {s t : Bytes} {b : UInt8} : byte s = .ok b t ↔ s = b :: t := by
  cases s <;> simp [byte]

theorem take_consumes {n : UInt64} {s t p : Bytes} (h : take n s = .ok p t) : s = p ++ t := by
  simp only [take] at h
  split at h
  · simp at h
  · simp only [EStateM.Result.ok.injEq] at h
    rw [← h.1, ← h.2, List.take_append_drop]

theorem longLength_consumes {w : UInt8} {n : UInt64} {s t : Bytes} (h : longLength w s = .ok n t) :
    ∃ field, s = field ++ t := by
  simp only [longLength, bind_eq_ok, rejectIf_eq_ok, pure_eq_ok] at h
  obtain ⟨_, _, ⟨-, rfl⟩, field, _, hf, _, _, ⟨-, rfl⟩, _, _, ⟨-, rfl⟩, -, rfl⟩ := h
  exact ⟨field, take_consumes hf⟩

/-- A string item is its payload behind a header, or the payload alone. -/
theorem bytes_consumes {s t p : Bytes} (h : bytes s = .ok p t) :
    ∃ front, front ++ p ≠ [] ∧ s = front ++ p ++ t := by
  rw [bytes, atomically_eq_ok, stringPayload, bind_eq_ok] at h
  obtain ⟨lead, r, hb, h⟩ := h
  rw [byte_eq_ok.1 hb]
  generalize ItemKind.classify lead = kind at h
  cases kind with
  | singleByte => obtain ⟨rfl, rfl⟩ := pure_eq_ok.1 h; exact ⟨[], by simp, by simp⟩
  | empty => obtain ⟨rfl, rfl⟩ := pure_eq_ok.1 h; exact ⟨[lead], by simp, by simp⟩
  | shortString =>
    simp only [bind_eq_ok, rejectIf_eq_ok, pure_eq_ok] at h
    obtain ⟨_, _, hp, _, _, ⟨-, rfl⟩, rfl, rfl⟩ := h
    exact ⟨[lead], by simp, by simp [take_consumes hp]⟩
  | longString =>
    obtain ⟨_, _, hl, hp⟩ := bind_eq_ok.1 h
    obtain ⟨field, rfl⟩ := longLength_consumes hl
    exact ⟨lead :: field, by simp, by simp [take_consumes hp]⟩
  | shortList => exact absurd h throw_ne_ok
  | longList => exact absurd h throw_ne_ok

/-- A list item is its payload behind a header. -/
theorem list_consumes {s t p : Bytes} (h : list s = .ok p t) :
    ∃ front, front ≠ [] ∧ s = front ++ p ++ t := by
  rw [list, atomically_eq_ok, listPayload, bind_eq_ok] at h
  obtain ⟨lead, r, hb, h⟩ := h
  rw [byte_eq_ok.1 hb]
  generalize ItemKind.classify lead = kind at h
  cases kind with
  | shortList => exact ⟨[lead], by simp, by simp [take_consumes h]⟩
  | longList =>
    obtain ⟨_, _, hl, hp⟩ := bind_eq_ok.1 h
    obtain ⟨field, rfl⟩ := longLength_consumes hl
    exact ⟨lead :: field, by simp, by simp [take_consumes hp]⟩
  | _ => exact absurd h throw_ne_ok

end Consumed

end Decoder
end Wallet.Rlp
