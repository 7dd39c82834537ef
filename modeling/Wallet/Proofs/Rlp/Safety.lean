import Mathlib.Data.List.Forall2
import Wallet.Proofs.Rlp.Cursor
import Wallet.Proofs.Rlp.Ledger

/-! Reading and writing items never leave the exact numbers. Each call of a client is run on the machine that stops at
an inexact result or outside its buffer, and one call follows the reader that it stands for (`follows_call`), hence so
does a run (`follows_run`), in which all positions lie in the buffer (`forall₂_cursors`). For writing it is enough to
look at a header, since all else is copied (`headerIsExact`). -/

namespace Wallet.Rlp

open Exact

namespace Primitive

open Reader

def readExactly : (p : Primitive) → Reader p.Value
  | uint8 => atomically (narrowed UInt8.size UInt8.ofNat 1)
  | uint16 => atomically (narrowed UInt16.size UInt16.ofNat 2)
  | uint32 => atomically (narrowed UInt32.size UInt32.ofNat 4)
  | uint64 => atomically (unsigned 8)
  | word => atomically Reader.word
  | bytes => Reader.bytes
  | array size => Reader.array size
  | text => Reader.text
  | address => atomically (Address.mk <$> Reader.array 20)

end Primitive

def Call.runExactly : (c : Call) → Reader c.Value
  | read p => p.readExactly
  | list => Reader.list
  | peek => Reader.peek
  | finish => Reader.finish

namespace Client

/-- A run on the machine. A client sees how its calls end, but not a trap. -/
def runExactly : {α : Type} → Client α → Reader α
  | _, done (.ok a) => pure a
  | _, done (.error x) => throw (.refused x)
  | _, call c next => Reader.attempt c.runExactly >>= fun r => (next r).runExactly
  | _, object body next => Reader.attempt (Reader.atomically body.runExactly) >>= fun r => (next r).runExactly

/-- The cursors of a run before and after each call, those inside an object included. -/
def cursors : {α : Type} → Client α → Cursor → List Cursor
  | _, done _, k => [k]
  | _, call c next, k =>
    k :: match Reader.attempt c.runExactly k with
      | .ok r k' => (next r).cursors k'
      | .error _ k' => [k']
  | _, object body next, k =>
    body.cursors k ++ match Reader.attempt (Reader.atomically body.runExactly) k with
      | .ok r k' => (next r).cursors k'
      | .error _ k' => [k']

end Client

namespace Exact

theorem follows_read (p : Primitive) : Follows Possible p.readExactly p.read := by
  cases p with
  | uint8 => exact (follows_narrowed 1 (by decide) UInt8.ofNat).atomically
  | uint16 => exact (follows_narrowed 2 (by decide) UInt16.ofNat).atomically
  | uint32 => exact (follows_narrowed 4 (by decide) UInt32.ofNat).atomically
  | uint64 => exact (follows_unsigned (by decide)).atomically
  | word => exact follows_word.atomically
  | bytes => exact follows_bytes
  | array size => exact follows_array size
  | text => exact follows_text
  | address =>
    have harray := (follows_array 20).bind fun v _ => follows_pure (Address.mk v)
    exact harray.atomically

theorem follows_call (c : Call) : Follows Possible c.runExactly c.run := by
  cases c with
  | read p => exact follows_read p
  | list => exact follows_list
  | peek => exact follows_peek trivial
  | finish => exact follows_finish fun _ => trivial

/-- A reader that follows another hands out what the other returns, and has gone over the same bytes. -/
theorem FollowsAt.exists_attempt {α : Type} {P : Error → Prop} {front rest : Bytes} {x : Reader α} {d : Decoder α}
    (h : FollowsAt P front rest x d) :
    ∃ p t, rest = p ++ t ∧ d.left rest = t ∧
      Reader.attempt x (.between front rest) = .ok (d.parse rest) (.between (front ++ p) t) := by
  unfold FollowsAt at h
  unfold Reader.attempt Decoder.parse Decoder.left
  cases hd : d rest with
  | ok a t =>
    rw [hd] at h
    obtain ⟨p, hrest, hx⟩ := h
    exact ⟨p, t, hrest, rfl, by rw [hx]⟩
  | error e t =>
    rw [hd] at h
    obtain ⟨-, p, hrest, hx⟩ := h
    exact ⟨p, t, hrest, rfl, by rw [hx]⟩

end Exact

namespace Client

variable {α β : Type}

theorem run_call (c : Call) (next : Except Error c.Value → Client α) (s : Bytes) :
    (call c next).run s = (next (c.run.parse s)).run (c.run.left s) := by
  unfold Decoder.parse Decoder.left
  cases h : c.run s <;> simp only [run, h]

theorem run_object (body : Client β) (next : Except Error β → Client α) (s : Bytes) :
    (object body next).run s =
      (next (Decoder.parse (readBy body.run) s)).run (Decoder.left (readBy body.run) s) := by
  unfold Decoder.parse Decoder.left
  cases h : readBy body.run s <;> simp only [run, h]

theorem exists_moments_call (c : Call) (next : Except Error c.Value → Client α) (m : Moment) :
    ∃ e, (call c next).moments m = m :: (next (c.run.parse m.rest)).moments ⟨c.run.left m.rest, e⟩ := by
  unfold Decoder.parse Decoder.left
  cases h : c.run m.rest with
  | ok v t => exact ⟨c.write v m.written, by simp only [moments, h]⟩
  | error x t => exact ⟨m.written, by simp only [moments, h]⟩

theorem exists_moments_object (body : Client β) (next : Except Error β → Client α) (m : Moment) :
    ∃ e, (object body next).moments m = body.moments m ++
      (next (Decoder.parse (readBy body.run) m.rest)).moments ⟨Decoder.left (readBy body.run) m.rest, e⟩ := by
  unfold Decoder.parse Decoder.left
  cases h : readBy body.run m.rest with
  | ok v t => exact ⟨body.record m.rest m.written, by simp only [moments, h]⟩
  | error x t => exact ⟨m.written, by simp only [moments, h]⟩

/-- A run is not trapped. A client may end it with any error of its own. -/
theorem follows_run (client : Client α) : Follows (fun _ => True) client.runExactly client.run := by
  induction client with
  | done result =>
    cases result with
    | ok a => exact follows_pure a
    | error e => exact follows_throw trivial
  | call c next ih =>
    intro front rest hsize
    obtain ⟨p, t, rfl, hleft, hattempt⟩ := (follows_call c front rest hsize).exists_attempt
    have hnext := ih (c.run.parse (p ++ t)) (front ++ p) t (by rwa [List.append_assoc])
    exact hnext.of_moved (bind_of_ok hattempt _) (by rw [run_call, hleft])
  | object body next ihBody ihNext =>
    intro front rest hsize
    obtain ⟨p, t, rfl, hleft, hattempt⟩ := (ihBody.atomically front rest hsize).exists_attempt
    have hnext := ihNext (Decoder.parse (readBy body.run) (p ++ t)) (front ++ p) t (by rwa [List.append_assoc])
    refine hnext.of_moved (bind_of_ok hattempt _) ?_
    rw [run_object]
    exact congrArg _ hleft

/-- At each moment of a run the machine's cursor stands before what is left to read then. -/
theorem forall₂_cursors (client : Client α) (front : Bytes) (m₀ : Moment)
    (hsize : (front ++ m₀.rest).length < 2 ^ 63) :
    List.Forall₂ (fun k m => ∃ f, f ++ m.rest = front ++ m₀.rest ∧ k = .between f m.rest)
      (client.cursors (.between front m₀.rest)) (client.moments m₀) := by
  induction client generalizing front m₀ with
  | done result => exact .cons ⟨front, rfl, rfl⟩ .nil
  | call c next ih =>
    obtain ⟨e, hmoments⟩ := exists_moments_call c next m₀
    obtain ⟨p, t, hrest, hleft, hattempt⟩ := (follows_call c front m₀.rest hsize).exists_attempt
    rw [hmoments, hleft, cursors, hattempt]
    refine .cons ⟨front, rfl, rfl⟩ ?_
    have hwhole : front ++ m₀.rest = front ++ p ++ t := by rw [hrest, List.append_assoc]
    rw [hwhole] at hsize ⊢
    exact ih _ (front ++ p) ⟨t, e⟩ hsize
  | object body next ihBody ihNext =>
    obtain ⟨e, hmoments⟩ := exists_moments_object body next m₀
    have hread : Follows (fun _ => True) (Reader.atomically body.runExactly) (readBy body.run) :=
      (follows_run body).atomically
    obtain ⟨p, t, hrest, hleft, hattempt⟩ := (hread front m₀.rest hsize).exists_attempt
    rw [hmoments, hleft, cursors, hattempt]
    refine List.rel_append (ihBody front m₀ hsize) ?_
    have hwhole : front ++ m₀.rest = front ++ p ++ t := by rw [hrest, List.append_assoc]
    rw [hwhole] at hsize ⊢
    exact ihNext _ (front ++ p) ⟨t, e⟩ hsize

/-- The outcome of a reader of what is left, with the cursor in the whole buffer. -/
def located {α : Type} (data : Bytes) : EStateM.Result Error Bytes α → EStateM.Result Halt Cursor α
  | .ok a t => .ok a ⟨data, UInt64.ofNat (data.length - t.length)⟩
  | .error e t => .error (.refused e) ⟨data, UInt64.ofNat (data.length - t.length)⟩

theorem located_of_followsAt {α : Type} {P : Error → Prop} {data : Bytes} {x : Reader α} {d : Decoder α}
    (h : FollowsAt P [] data x d) : x ⟨data, 0⟩ = located data (d data) := by
  have hposition (p t : Bytes) : Cursor.between p t = ⟨p ++ t, UInt64.ofNat ((p ++ t).length - t.length)⟩ := by
    rw [List.length_append, Nat.add_sub_cancel]
    rfl
  unfold FollowsAt at h
  cases hd : d data with
  | ok a t =>
    rw [hd] at h
    obtain ⟨p, rfl, hx⟩ := h
    exact hx.trans (congrArg _ (hposition p t))
  | error e t =>
    rw [hd] at h
    obtain ⟨-, p, rfl, hx⟩ := h
    exact hx.trans (congrArg _ (hposition p t))

/-- Items are read and written with exact arithmetic, and within the buffer. Over less than `2 ^ 63` bytes no run of
calls is trapped: it ends as it does without positions. At each moment of it the position lies in the buffer, what is
behind it is what is left to read, and how much that is can be computed. No call fails because a length field is too
wide. The bytes of a length and of a number are put together without losing a bit, and for a payload of less than
`2 ^ 63` bytes the header stays in the class of the item. -/
theorem codec_is_exact {α : Type} (client : Client α) {data : Bytes} (h : data.length < 2 ^ 63) :
    client.runExactly ⟨data, 0⟩ = located data (client.run data) ∧
    List.Forall₂ (fun k m => k.data = data ∧ k.position.toNat ≤ data.length ∧
        data.drop k.position.toNat = m.rest ∧ Reader.remaining k = .ok (UInt64.ofNat m.rest.length) k)
      (client.cursors ⟨data, 0⟩) (client.moments ⟨data, .empty⟩) ∧
    (∀ (c : Call) (s t : Bytes) (width : Nat), s.length < 2 ^ 63 → c.run s ≠ .error (.lengthTooWide width) t) ∧
    (∀ digits : Bytes, (digits.length ≤ 8 → (Decoder.joined digits).toNat = digits.toNat) ∧
      (digits.length ≤ 32 → (Word.ofBytes digits).toNat = digits.toNat)) ∧
    ∀ length < 2 ^ 63, HeaderIsExact length shortString longString 0xb7 0xbf ∧
      HeaderIsExact length shortList longList 0xf7 0xff := by
  refine ⟨located_of_followsAt (follows_run client [] data h), ?_, fun c s t width hs hrun => ?_,
    fun digits => ⟨Decoder.toNat_joined, Word.toNat_ofBytes⟩, fun length hlength => ?_⟩
  · refine (forall₂_cursors client [] ⟨data, .empty⟩ h).imp fun k m hk => ?_
    obtain ⟨f, hf, rfl⟩ := hk
    replace hf : f ++ m.rest = data := hf
    subst hf
    rw [toNat_position h]
    exact ⟨rfl, (List.prefix_append f m.rest).length_le, List.drop_left, remaining_between h⟩
  · have hfollows := follows_call c [] s hs
    rw [FollowsAt, hrun] at hfollows
    exact hfollows.1
  · have hsize : length < UInt64.size := hlength.trans (by decide)
    exact ⟨headerIsExact hsize rfl rfl, headerIsExact hsize rfl rfl⟩

/-- A number, then a string. -/
def pair : Client Bytes := .call (.read .uint8) fun _ => .call (.read .bytes) fun r => .done r

/-- A number, and a string whose length field claims as many bytes as a machine word can count. -/
def overreaching : Bytes := [0x05, 0xbf, 0xff, 0xff, 0xff, 0xff, 0xff, 0xff, 0xff, 0xff]

theorem overreaching_is_exact :
    overreaching.length < 2 ^ 63 ∧
    pair.runExactly ⟨overreaching, 0⟩ = .error (.refused (.endOfInput 0 (2 ^ 64 - 1))) ⟨overreaching, 1⟩ ∧
    (pair.cursors ⟨overreaching, 0⟩).map (·.position) = [0, 1, 1] ∧
    ∀ k ∈ pair.cursors ⟨overreaching, 0⟩, k.position.toNat ≤ overreaching.length := by
  have hsize : overreaching.length < 2 ^ 63 := by decide
  obtain ⟨hrun, hcursors, -⟩ := codec_is_exact pair hsize
  refine ⟨hsize, hrun.trans rfl, rfl, fun k hk => ?_⟩
  obtain ⟨i, hi, rfl⟩ := List.mem_iff_getElem.1 hk
  exact (hcursors.get hi (by rwa [← hcursors.length_eq])).2.1

end Client
end Wallet.Rlp
