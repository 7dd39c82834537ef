import Wallet.Proofs.Rlp.Primitive

/-! What has been consumed of an input is what the encoder writes for the values that were read. A
client calls one decoder and goes on according to what each call returns, so it may try, fail and try
otherwise; a value may be read by a client of its own, which is taken back as a whole if it fails.
Along any run an encoder is kept that writes each value at the moment it is returned. One call keeps
the balance of the two (`Call.output_write_append`), hence so does a run, and what is taken back
leaves both as they were. Main statement: `consumed_is_written`. -/

namespace Wallet.Rlp

/-- A call on a decoder: the read of one item, or a look that reads nothing. -/
inductive Call
  | read (p : Primitive)
  | list
  | peek
  | finish
  deriving DecidableEq, Repr

namespace Call

def Value : Call → Type
  | read p => p.Value
  | list => Bytes
  | peek => ItemKind
  | finish => Unit

def run : (c : Call) → Decoder c.Value
  | read p => p.read
  | list => Decoder.list
  | peek => Decoder.peek
  | finish => Decoder.finish

/-- Writes the value that a call has returned. -/
def write : (c : Call) → c.Value → Encoder → Encoder
  | read p, v, e => p.write v e
  | list, payload, e => e.writeList payload
  | peek, _, e => e
  | finish, _, e => e

end Call

/-- A program over one decoder. Its `object` reads a value by a program of its own, at whose failure
the decoder goes back to where it was. -/
inductive Client : Type → Type 1
  | done {α : Type} (result : Except Error α) : Client α
  | call {α : Type} (c : Call) (next : Except Error c.Value → Client α) : Client α
  | object {α β : Type} (body : Client β) (next : Except Error β → Client α) : Client α

/-- What is left of the input at some point of a run, and the encoder with the values read until then. -/
structure Moment where
  rest : Bytes
  written : Encoder
  deriving DecidableEq, Repr

namespace Client

/-- The read of a value whose reader is `reader`. -/
def readBy {α : Type} (reader : Bytes → EStateM.Result Error Bytes α) : Decoder α := @Decoder.read α ⟨reader⟩

def run : {α : Type} → Client α → Bytes → EStateM.Result Error Bytes α
  | _, done (.ok a), s => .ok a s
  | _, done (.error x), s => .error x s
  | _, call c next, s =>
    match c.run s with
    | .ok v t => (next (.ok v)).run t
    | .error x t => (next (.error x)).run t
  | _, object body next, s =>
    match readBy body.run s with
    | .ok v t => (next (.ok v)).run t
    | .error x t => (next (.error x)).run t

/-- Writes the values of the reads that succeed, those inside an object if the object does. -/
def record : {α : Type} → Client α → Bytes → Encoder → Encoder
  | _, done _, _, e => e
  | _, call c next, s, e =>
    match c.run s with
    | .ok v t => (next (.ok v)).record t (c.write v e)
    | .error x t => (next (.error x)).record t e
  | _, object body next, s, e =>
    match readBy body.run s with
    | .ok v t => (next (.ok v)).record t (body.record s e)
    | .error x t => (next (.error x)).record t e

/-- The moments of a run before and after each call, those inside an object included. -/
def moments : {α : Type} → Client α → Moment → List Moment
  | _, done _, m => [m]
  | _, call c next, m =>
    m :: match c.run m.rest with
      | .ok v t => (next (.ok v)).moments ⟨t, c.write v m.written⟩
      | .error x t => (next (.error x)).moments ⟨t, m.written⟩
  | _, object body next, m =>
    body.moments m ++ match readBy body.run m.rest with
      | .ok v t => (next (.ok v)).moments ⟨t, body.record m.rest m.written⟩
      | .error x t => (next (.error x)).moments ⟨t, m.written⟩

end Client

namespace Decoder

variable {α : Type} {s t : Bytes} {x : Error}

/-- What a read leaves of its input, whether it succeeds or not. -/
def left (d : Decoder α) (s : Bytes) : Bytes :=
  match d s with
  | .ok _ t => t
  | .error _ t => t

theorem eq_of_atomically_eq_error {d : Decoder α} (h : atomically d s = .error x t) : t = s := by
  unfold atomically at h
  split at h
  · cases h
  · cases h
    rfl

theorem left_peek (s : Bytes) : left peek s = s := by
  cases s <;> rfl

theorem left_finish (s : Bytes) : left finish s = s := by
  cases s <;> rfl

theorem left_of_ok {d : Decoder α} {a : α} (h : d s = .ok a t) : left d s = t := by
  rw [left, h]

theorem left_of_error {d : Decoder α} (h : d s = .error x t) : left d s = t := by
  rw [left, h]

end Decoder

namespace Call

open Decoder (eq_of_atomically_eq_error)

theorem eq_of_run_eq_error (c : Call) {s t : Bytes} {x : Error} (h : c.run s = .error x t) : t = s := by
  cases c with
  | read p => cases p <;> exact eq_of_atomically_eq_error h
  | list => exact eq_of_atomically_eq_error h
  | peek => exact (Decoder.left_of_error h).symm.trans (Decoder.left_peek s)
  | finish => exact (Decoder.left_of_error h).symm.trans (Decoder.left_finish s)

/-- What one call takes off the input is what its value adds to the output. -/
theorem output_write_append (c : Call) {s t : Bytes} {v : c.Value} (h : c.run s = .ok v t) (e : Encoder) :
    (c.write v e).output ++ t = e.output ++ s := by
  cases c with
  | read p =>
    have hwrite : (p.write v e).output = e.output ++ encodeString (p.payload v) := p.output_write v e
    obtain ⟨rfl, -⟩ := Primitive.read_eq_ok.1 h
    rw [← List.append_assoc, ← hwrite]
    rfl
  | list =>
    obtain ⟨rfl, -⟩ := Decoder.list_eq_ok.1 h
    exact List.append_assoc ..
  | peek =>
    have hleft : t = s := (Decoder.left_of_ok h).symm.trans (Decoder.left_peek s)
    rw [hleft]
    rfl
  | finish =>
    have hleft : t = s := (Decoder.left_of_ok h).symm.trans (Decoder.left_finish s)
    rw [hleft]
    rfl

end Call

namespace Client

open Decoder (left left_of_ok left_of_error)

variable {α : Type}

theorem eq_of_readBy_eq_error {reader : Bytes → EStateM.Result Error Bytes α} {s t : Bytes} {x : Error}
    (h : readBy reader s = .error x t) : t = s :=
  Decoder.eq_of_atomically_eq_error h

theorem readBy_eq_ok {reader : Bytes → EStateM.Result Error Bytes α} {s t : Bytes} {a : α} :
    readBy reader s = .ok a t ↔ reader s = .ok a t :=
  Decoder.atomically_eq_ok

/-- What a whole run takes off the input is what its record adds to the output. -/
theorem output_record_append (client : Client α) (s : Bytes) (e : Encoder) :
    (client.record s e).output ++ left client.run s = e.output ++ s := by
  induction client generalizing s e with
  | done result => cases result <;> rfl
  | call c next ih =>
    cases h : c.run s with
    | ok v t =>
      simp only [record, left, run, h]
      exact (ih _ t (c.write v e)).trans (c.output_write_append h e)
    | error x t =>
      simp only [record, left, run, h]
      rw [← c.eq_of_run_eq_error h]
      exact ih _ t e
  | object body next ihBody ihNext =>
    cases h : readBy body.run s with
    | ok v t =>
      have hbody : left body.run s = t := left_of_ok (readBy_eq_ok.1 h)
      simp only [record, left, run, h]
      refine (ihNext _ t (body.record s e)).trans ?_
      rw [← hbody]
      exact ihBody s e
    | error x t =>
      simp only [record, left, run, h]
      rw [← eq_of_readBy_eq_error h]
      exact ihNext _ t e

/-- Every moment of a run keeps the balance that the run starts with. -/
theorem output_append_of_mem (client : Client α) {m₀ m : Moment} (h : m ∈ client.moments m₀) :
    m.written.output ++ m.rest = m₀.written.output ++ m₀.rest := by
  induction client generalizing m₀ with
  | done result =>
    rw [moments, List.mem_singleton] at h
    rw [h]
  | call c next ih =>
    rw [moments, List.mem_cons] at h
    rcases h with rfl | h
    · rfl
    · cases hrun : c.run m₀.rest with
      | ok v t =>
        simp only [hrun] at h
        exact (ih _ h).trans (c.output_write_append hrun m₀.written)
      | error x t =>
        simp only [hrun] at h
        rw [← c.eq_of_run_eq_error hrun]
        exact ih _ h
  | object body next ihBody ihNext =>
    rw [moments, List.mem_append] at h
    rcases h with h | h
    · exact ihBody h
    · cases hread : readBy body.run m₀.rest with
      | ok v t =>
        have hbody : left body.run m₀.rest = t := left_of_ok (readBy_eq_ok.1 hread)
        simp only [hread] at h
        refine (ihNext _ h).trans ?_
        rw [← hbody]
        exact body.output_record_append m₀.rest m₀.written
      | error x t =>
        simp only [hread] at h
        rw [← eq_of_readBy_eq_error hread]
        exact ihNext _ h

/-- A run ends with the input that it leaves and with all that it has recorded. -/
theorem getLast?_moments (client : Client α) (m : Moment) :
    (client.moments m).getLast? = some ⟨left client.run m.rest, client.record m.rest m.written⟩ := by
  induction client generalizing m with
  | done result => cases result <;> rfl
  | call c next ih =>
    rw [moments, List.getLast?_cons]
    cases h : c.run m.rest with
    | ok v t => simp only [ih, Option.getD_some, record, left, run, h]
    | error x t => simp only [ih, Option.getD_some, record, left, run, h]
  | object body next ihBody ihNext =>
    rw [moments, List.getLast?_append]
    cases h : readBy body.run m.rest with
    | ok v t => simp only [ihNext, Option.some_or, record, left, run, h]
    | error x t => simp only [ihNext, Option.some_or, record, left, run, h]

/-- At every moment of a run the bytes consumed are those that the encoder writes for the values
returned so far. A call that fails, an object that fails halfway and a call that reads nothing leave
the input as it was. -/
theorem consumed_is_written (client : Client α) (data : Bytes) :
    (∀ m ∈ client.moments ⟨data, .empty⟩,
      data.take (data.length - m.rest.length) = m.written.output ∧
        data.drop (data.length - m.rest.length) = m.rest) ∧
    (client.moments ⟨data, .empty⟩).getLast? =
      some ⟨left client.run data, client.record data .empty⟩ ∧
    (∀ (c : Call) (s t : Bytes) (x : Error), c.run s = .error x t → t = s) ∧
    (∀ {β : Type} (body : Client β) (s t : Bytes) (x : Error), readBy body.run s = .error x t → t = s) ∧
    ∀ s, left Decoder.peek s = s ∧ left Decoder.finish s = s := by
  refine ⟨fun m hm => ?_, getLast?_moments client _, fun c _ _ _ h => c.eq_of_run_eq_error h,
    fun _ _ _ _ h => eq_of_readBy_eq_error h, fun s => ⟨Decoder.left_peek s, Decoder.left_finish s⟩⟩
  have hbalance : m.written.output ++ m.rest = data := client.output_append_of_mem hm
  have hconsumed : data.length - m.rest.length = m.written.output.length := by
    rw [← hbalance, List.length_append]
    omega
  rw [hconsumed, ← hbalance]
  exact ⟨List.take_left, List.drop_left⟩

/-- A number; then an object of two numbers, which fails at the second; then one of a number and a list. -/
def retrying : Client Bytes :=
  .call (.read .uint8) fun _ =>
  .object (.call (.read .uint16) fun _ => .call (.read .uint16) fun second => .done second) fun _ =>
  .object (.call (.read .uint16) fun _ => .call .list fun payload => .done payload) fun payload =>
  .call .finish fun _ => .done payload

theorem retrying_consumed :
    (retrying.moments ⟨[0x05, 0x82, 0x01, 0x00, 0xc0], .empty⟩).map (·.rest.length) =
      [5, 4, 1, 1, 4, 1, 0, 0, 0] ∧
    ∀ m ∈ retrying.moments ⟨[0x05, 0x82, 0x01, 0x00, 0xc0], .empty⟩,
      List.take (5 - m.rest.length) [0x05, 0x82, 0x01, 0x00, 0xc0] = m.written.output ∧
        List.drop (5 - m.rest.length) [0x05, 0x82, 0x01, 0x00, 0xc0] = m.rest :=
  ⟨by rfl, (consumed_is_written retrying [0x05, 0x82, 0x01, 0x00, 0xc0]).1⟩

end Client
end Wallet.Rlp
