import Wallet.Proofs.Rlp.Primitive

/-! Readers that fail. A step that fails ends the reader it stands in, with its own error, and a read that
fails has consumed nothing. Every read of a string item takes the payload of the item first, so where that
cannot be taken all of them fail alike (`Primitive.read_of_error`). -/

namespace Wallet.Rlp

section Steps

variable {ε σ α β : Type} {x : EStateM ε σ α} {s t : σ}

theorem bind_of_ok {a : α} (h : x s = .ok a t) (f : α → EStateM ε σ β) : (x >>= f) s = f a t := by
  simp only [bind, EStateM.bind, h]

theorem bind_of_error {e : ε} (h : x s = .error e t) (f : α → EStateM ε σ β) : (x >>= f) s = .error e t := by
  simp only [bind, EStateM.bind, h]

end Steps

namespace Decoder

variable {α β : Type} {x : Decoder α} {s t : Bytes} {e : Error}

theorem map_of_error (h : x s = .error e t) (f : α → β) : (f <$> x) s = .error e t := by
  rw [← bind_pure_comp]
  exact bind_of_error h _

theorem atomically_of_error (h : x s = .error e t) : atomically x s = .error e s := by
  rw [atomically, h]

theorem rejectIf_of_not {c : Prop} [Decidable c] (h : ¬c) (e : Error) (s : Bytes) : rejectIf c e s = .ok () s :=
  rejectIf_eq_ok.2 ⟨h, rfl⟩

theorem rejectIf_of {c : Prop} [Decidable c] (h : c) (e : Error) (s : Bytes) : rejectIf c e s = .error e s := by
  rw [rejectIf, if_pos h]
  rfl

theorem parse_of_error (h : x s = .error e t) : x.parse s = .error e := by
  rw [parse, h]

theorem digits_of_error (h : stringPayload s = .error e t) (capacity : Nat) : digits capacity s = .error e t :=
  bind_of_error h _

/-- The width is looked at before the digits are. -/
theorem digits_of_wide {d : Bytes} {capacity : Nat} (h : stringPayload s = .ok d t) (hwide : capacity < d.length) :
    digits capacity s = .error (.tooWide d.length capacity) t := by
  rw [digits, bind_of_ok h]
  exact bind_of_error (rejectIf_of hwide _ t) _

theorem unsigned_of_error {width : Nat} (h : digits width s = .error e t) : unsigned width s = .error e s :=
  atomically_of_error (bind_of_error h _)

theorem word_of_error (h : digits 32 s = .error e t) : word s = .error e s :=
  atomically_of_error (bind_of_error h _)

end Decoder

/-- A read of a string item whose payload cannot be taken fails with the same error and stays where it is. -/
theorem Primitive.read_of_error {s t : Bytes} {e : Error} (h : Decoder.stringPayload s = .error e t)
    (p : Primitive) : p.read s = .error e s := by
  have hnumber (width : Nat) : Decoder.unsigned width s = .error e s :=
    Decoder.unsigned_of_error (Decoder.digits_of_error h width)
  cases p with
  | uint8 => exact Decoder.atomically_of_error (Decoder.map_of_error (hnumber 1) _)
  | uint16 => exact Decoder.atomically_of_error (Decoder.map_of_error (hnumber 2) _)
  | uint32 => exact Decoder.atomically_of_error (Decoder.map_of_error (hnumber 4) _)
  | uint64 => exact Decoder.atomically_of_error (hnumber 8)
  | word => exact Decoder.atomically_of_error (Decoder.word_of_error (Decoder.digits_of_error h 32))
  | bytes => exact Decoder.atomically_of_error h
  | array size => exact Decoder.atomically_of_error (bind_of_error h _)
  | text => exact Decoder.atomically_of_error (bind_of_error h _)
  | address =>
    have harray : Decoder.array 20 s = .error e s :=
      Decoder.atomically_of_error (bind_of_error h _)
    exact Decoder.atomically_of_error (Decoder.map_of_error harray _)

end Wallet.Rlp
