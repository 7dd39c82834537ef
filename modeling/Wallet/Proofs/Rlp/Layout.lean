import Wallet.Proofs.Outcome
import Wallet.Proofs.Rlp.Primitive

/-! Sequences of typed writes, with lists in them to any depth, and the typed reads that match them.
A layout says which types are written and where lists open; it fixes the type of what is written and
what is read, so that reads and writes cannot be matched wrongly. Main statement:
`reads_return_writes`. -/

namespace Wallet.Rlp

namespace Decoder

variable {α : Type} {x : Decoder α} {s t : Bytes} {a : α}

/-- Reads a value from the payload of a list, which it has to be the whole of. -/
def within (x : Decoder α) (payload : Bytes) : Decoder α := fun rest =>
  match parse (x >>= fun a => finish >>= fun _ => pure a) payload with
  | .ok a => .ok a rest
  | .error e => .error e rest

theorem within_eq_ok {payload : Bytes} (h : x payload = .ok a []) : within x payload s = .ok a s := by
  have hfinish : (finish >>= fun _ => pure a : Decoder α) [] = .ok a [] :=
    bind_eq_ok.2 ⟨(), [], rfl, pure_eq_ok.2 ⟨rfl, rfl⟩⟩
  have hwhole : parse (x >>= fun a => finish >>= fun _ => pure a) payload = .ok a :=
    Outcome.parse_eq_ok.2 ⟨[], bind_eq_ok.2 ⟨a, [], h, hfinish⟩⟩
  unfold within
  rw [hwhole]

end Decoder

inductive Layout
  | item (p : Primitive)
  | list (layouts : List Layout)

namespace Layout

mutual

def Value : Layout → Type
  | item p => p.Value
  | list layouts => Values layouts

def Values : List Layout → Type
  | [] => Unit
  | layout :: layouts => Value layout × Values layouts

end

mutual

def write : (layout : Layout) → layout.Value → Encoder → Encoder
  | item p, v, e => p.write v e
  | list layouts, vs, e => e.writeListWith (writeAll layouts vs)

def writeAll : (layouts : List Layout) → Values layouts → Encoder → Encoder
  | [], _, e => e
  | layout :: layouts, (v, vs), e => writeAll layouts vs (write layout v e)

end

mutual

def read : (layout : Layout) → Decoder layout.Value
  | item p => p.read
  | list layouts => Decoder.list >>= Decoder.within (readAll layouts)

def readAll : (layouts : List Layout) → Decoder (Values layouts)
  | [] => pure ()
  | layout :: layouts => do
    let v ← read layout
    let vs ← readAll layouts
    return (v, vs)

end

mutual

theorem output_write (layout : Layout) (v : layout.Value) (e : Encoder) :
    (layout.write v e).output = e.output ++ (layout.write v .empty).output := by
  match layout with
  | item p => exact (p.output_write v e).trans (congrArg _ (p.output_write v .empty).symm)
  | list layouts => rfl

theorem output_writeAll (layouts : List Layout) (vs : Values layouts) (e : Encoder) :
    (writeAll layouts vs e).output = e.output ++ (writeAll layouts vs .empty).output := by
  match layouts, vs with
  | [], _ => exact (List.append_nil _).symm
  | layout :: layouts, (v, vs) =>
    simp only [writeAll]
    rw [output_writeAll, output_write, output_writeAll layouts vs (layout.write v .empty), List.append_assoc]

end

mutual

/-- A read gives back what was written, whatever follows. -/
theorem read_write (layout : Layout) (v : layout.Value) (t : Bytes)
    (h : (layout.write v .empty).size < UInt64.size) :
    layout.read ((layout.write v .empty).output ++ t) = .ok v t := by
  match layout with
  | item p =>
    have hout : (p.write v .empty).output = encodeString (p.payload v) := p.output_write v .empty
    rw [Encoder.size] at h
    simp only [write, hout] at h ⊢
    exact Primitive.read_eq_ok.2 ⟨rfl, (length_le_encodeString _).trans_lt h⟩
  | list layouts =>
    have hout : (write (list layouts) v .empty).output = encodeList (writeAll layouts v .empty).output := rfl
    rw [Encoder.size, hout] at h
    rw [hout]
    have hsize := (length_lt_encodeList _).trans h
    have hpayload := readAll_writeAll layouts v [] hsize
    rw [List.append_nil] at hpayload
    exact Decoder.bind_eq_ok.2 ⟨_, t, Decoder.list_eq_ok.2 ⟨rfl, hsize⟩, Decoder.within_eq_ok hpayload⟩

theorem readAll_writeAll (layouts : List Layout) (vs : Values layouts) (t : Bytes)
    (h : (writeAll layouts vs .empty).size < UInt64.size) :
    readAll layouts ((writeAll layouts vs .empty).output ++ t) = .ok vs t := by
  match layouts, vs with
  | [], _ => rfl
  | layout :: layouts, (v, vs) =>
    have hout : (writeAll (layout :: layouts) (v, vs) .empty).output =
        (layout.write v .empty).output ++ (writeAll layouts vs .empty).output :=
      output_writeAll layouts vs (layout.write v .empty)
    rw [Encoder.size, hout, List.length_append] at h
    rw [hout, List.append_assoc]
    have hhead := read_write layout v ((writeAll layouts vs .empty).output ++ t) (by rw [Encoder.size]; omega)
    have htail := readAll_writeAll layouts vs t (by rw [Encoder.size]; omega)
    exact Decoder.bind_eq_ok.2 ⟨v, _, hhead, Decoder.bind_eq_ok.2 ⟨vs, t, htail, Decoder.pure_eq_ok.2 ⟨rfl, rfl⟩⟩⟩

end

/-- Typed reads from where the typed writes began return what was written, in order, and stop where
the writes ended; inside, each list is read to its end. -/
theorem reads_return_writes (e : Encoder) (layouts : List Layout) (values : Values layouts) (suffix : Bytes)
    (hsize : (writeAll layouts values e).size < UInt64.size) :
    readAll layouts (((writeAll layouts values e).output ++ suffix).drop e.size) = .ok values suffix := by
  have hout := output_writeAll layouts values e
  rw [Encoder.size, hout, List.length_append] at hsize
  rw [hout, List.append_assoc, Encoder.size, List.drop_left]
  exact readAll_writeAll layouts values suffix (by rw [Encoder.size]; omega)

/-- A list of a number, an empty list and a text, and behind it an array. -/
def nested : List Layout := [list [item .uint8, list [], item .text], item (.array 2)]

def nestedValues : Values nested := (((0x80 : UInt8), ((), ("a", ()))), (#v[0x01, 0x02], ()))

theorem nested_reads_return :
    (writeAll nested nestedValues ⟨[0xff]⟩).output =
      [0xff, 0xc4, 0x81, 0x80, 0xc0, 0x61, 0x82, 0x01, 0x02] ∧
    readAll nested [0xc4, 0x81, 0x80, 0xc0, 0x61, 0x82, 0x01, 0x02, 0x05] = .ok nestedValues [0x05] := by
  have hout : (writeAll nested nestedValues ⟨[0xff]⟩).output =
      [0xff, 0xc4, 0x81, 0x80, 0xc0, 0x61, 0x82, 0x01, 0x02] := by rfl
  have hsize : (writeAll nested nestedValues ⟨[0xff]⟩).size < UInt64.size := by
    rw [Encoder.size, hout]
    decide
  have h := reads_return_writes ⟨[0xff]⟩ nested nestedValues [0x05] hsize
  rw [hout] at h
  exact ⟨hout, h⟩

end Layout
end Wallet.Rlp
