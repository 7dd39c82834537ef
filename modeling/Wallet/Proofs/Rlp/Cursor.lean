import Wallet.Proofs.Rlp.Exact
import Wallet.Proofs.Rlp.Truncation

/-! The readers of the machine against those that know only what is left to read. A reader of the machine follows
another if it does the same in every buffer and moves over what the other takes (`Follows`); it is not trapped then.
That is kept by sequencing (`Follows.bind`) and by taking a failure back (`Follows.atomically`), so it has to be shown
of single bytes and slices (`follows_byte`, `follows_take`) and passes on from there to every read of an item. Two
things keep the machine going: the length that an item claims is compared with what is left before it is added to the
position, and a base is subtracted only from a lead byte of its class. -/

namespace Wallet.Rlp

/-- The cursor behind `front`, where `rest` is still to be read. -/
def Cursor.between (front rest : Bytes) : Cursor := ⟨front ++ rest, UInt64.ofNat front.length⟩

namespace Exact

/-- Between `front` and `rest` the machine's reader `x` returns what `d` returns and moves over the bytes that `d`
takes, or it is refused with the error of `d`, which is one of `P`, and has moved alike. -/
def FollowsAt {α : Type} (P : Error → Prop) (front rest : Bytes) (x : Reader α) (d : Decoder α) : Prop :=
  match d rest with
  | .ok a t => ∃ p, rest = p ++ t ∧ x (.between front rest) = .ok a (.between (front ++ p) t)
  | .error e t =>
    P e ∧ ∃ p, rest = p ++ t ∧ x (.between front rest) = .error (.refused e) (.between (front ++ p) t)

def Follows {α : Type} (P : Error → Prop) (x : Reader α) (d : Decoder α) : Prop :=
  ∀ front rest : Bytes, (front ++ rest).length < 2 ^ 63 → FollowsAt P front rest x d

/-- The errors that reading an item can end with: all but that a length field is too wide. -/
def Possible : Error → Prop
  | .lengthTooWide _ => False
  | _ => True

section Rules

open Reader

variable {α β : Type} {P : Error → Prop} {front rest p t : Bytes} {x : Reader α} {d : Decoder α}

theorem Reader.get_bind (f : Cursor → Reader β) (c : Cursor) : (get >>= f) c = f c c := rfl

theorem Reader.exactly_bind (a : α) (f : α → Reader β) (c : Cursor) : (exactly (.ok a) >>= f) c = f a c := rfl

theorem FollowsAt.of_ok {a : α} (h : x (.between front rest) = .ok a (.between front rest))
    (hd : d rest = .ok a rest) : FollowsAt P front rest x d := by
  rw [FollowsAt, hd]
  exact ⟨[], rfl, by rwa [List.append_nil]⟩

theorem FollowsAt.of_error {e : Error} (he : P e)
    (h : x (.between front rest) = .error (.refused e) (.between front rest)) (hd : d rest = .error e rest) :
    FollowsAt P front rest x d := by
  rw [FollowsAt, hd]
  exact ⟨he, [], rfl, by rwa [List.append_nil]⟩

/-- What goes on behind some bytes that both have gone over. -/
theorem FollowsAt.of_moved {y : Reader α} {g : Decoder α} (h : FollowsAt P (front ++ p) t y g)
    (hx : x (.between front (p ++ t)) = y (.between (front ++ p) t)) (hd : d (p ++ t) = g t) :
    FollowsAt P front (p ++ t) x d := by
  unfold FollowsAt at h ⊢
  rw [hx, hd]
  cases hg : g t with
  | ok a u =>
    rw [hg] at h
    obtain ⟨q, rfl, hy⟩ := h
    exact ⟨p ++ q, (List.append_assoc ..).symm, by rw [hy, List.append_assoc]⟩
  | error e u =>
    rw [hg] at h
    obtain ⟨he, q, rfl, hy⟩ := h
    exact ⟨he, p ++ q, (List.append_assoc ..).symm, by rw [hy, List.append_assoc]⟩

theorem FollowsAt.bind {f : α → Reader β} {g : α → Decoder β} (hx : FollowsAt P front rest x d)
    (hf : ∀ a p t, rest = p ++ t → d rest = .ok a t → FollowsAt P (front ++ p) t (f a) (g a)) :
    FollowsAt P front rest (x >>= f) (d >>= g) := by
  unfold FollowsAt at hx
  cases hd : d rest with
  | ok a t =>
    rw [hd] at hx
    obtain ⟨p, rfl, hxa⟩ := hx
    exact (hf a p t rfl hd).of_moved (bind_of_ok hxa f) (bind_of_ok hd g)
  | error e t =>
    rw [hd] at hx
    obtain ⟨he, p, rfl, hxe⟩ := hx
    rw [FollowsAt, bind_of_error hxe, bind_of_error hd]
    exact ⟨he, p, rfl, rfl⟩

theorem Follows.bind {f : α → Reader β} {g : α → Decoder β} (hx : Follows P x d)
    (hf : ∀ a, (∃ s t, d s = .ok a t) → Follows P (f a) (g a)) : Follows P (x >>= f) (d >>= g) := by
  intro front rest hsize
  refine (hx front rest hsize).bind fun a p t hrest hd => ?_
  refine hf a ⟨rest, t, hd⟩ (front ++ p) t ?_
  rwa [List.append_assoc, ← hrest]

theorem follows_pure (a : α) : Follows P (pure a) (pure a) :=
  fun _ _ _ => FollowsAt.of_ok rfl rfl

theorem follows_throw {e : Error} (h : P e) : Follows P (throw (.refused e) : Reader α) (throw e) :=
  fun _ _ _ => FollowsAt.of_error h rfl rfl

theorem follows_rejectIf {c : Prop} [Decidable c] {e : Error} (h : c → P e) :
    Follows P (Reader.rejectIf c e) (Decoder.rejectIf c e) := by
  unfold Reader.rejectIf Decoder.rejectIf
  split
  · exact follows_throw (h ‹c›)
  · exact follows_pure ()

/-- Arithmetic that is exact leaves no trace. -/
theorem Follows.exactly_bind {a : α} {y : Except Trap α} {f : α → Reader β} {g : Decoder β} (hy : y = .ok a)
    (hf : Follows P (f a) g) : Follows P (exactly y >>= f) g := by
  rw [hy]
  exact hf

theorem Follows.atomically (hx : Follows P x d) : Follows P (Reader.atomically x) (Decoder.atomically d) := by
  intro front rest hsize
  have hinner := hx front rest hsize
  unfold FollowsAt Reader.atomically Decoder.atomically at *
  cases hd : d rest with
  | ok a t =>
    rw [hd] at hinner
    obtain ⟨p, rfl, hxa⟩ := hinner
    exact ⟨p, rfl, by rw [hxa]⟩
  | error e t =>
    rw [hd] at hinner
    obtain ⟨he, p, rfl, hxe⟩ := hinner
    refine ⟨he, [], rfl, ?_⟩
    rw [hxe]
    simp [Cursor.between]

end Rules

/-! Bytes and slices: the only steps that look at the position -/

section Slices

open Reader

variable {front rest p t : Bytes} {P : Error → Prop}

theorem toNat_ofNat_of_lt {n : Nat} (h : n < 2 ^ 63) : (UInt64.ofNat n).toNat = n :=
  UInt64.toNat_ofNat_of_lt' (h.trans (by decide))

theorem count_of_lt {n : Nat} {z : Int} (hz : z = n) (h : n < 2 ^ 63) : count z = .ok (UInt64.ofNat n) :=
  count_eq hz (h.trans (by decide))

theorem toNat_position (h : (front ++ rest).length < 2 ^ 63) :
    (Cursor.between front rest).position.toNat = front.length := by
  rw [List.length_append] at h
  exact toNat_ofNat_of_lt (by omega)

theorem getElem?_position (h : (front ++ rest).length < 2 ^ 63) :
    (Cursor.between front rest).data[(Cursor.between front rest).position.toNat]? = rest.head? := by
  rw [toNat_position h, Cursor.between, List.getElem?_append_right le_rfl, Nat.sub_self, List.head?_eq_getElem?]

theorem remaining_between (h : (front ++ rest).length < 2 ^ 63) :
    remaining (.between front rest) = .ok (UInt64.ofNat rest.length) (.between front rest) := by
  have hsum : (front ++ rest).length = front.length + rest.length := List.length_append
  have hcount : count ((front ++ rest).length - (Cursor.between front rest).position.toNat) =
      .ok (UInt64.ofNat rest.length) := by
    rw [toNat_position h]
    exact count_of_lt (by omega) (by omega)
  change exactly (count ((front ++ rest).length - (Cursor.between front rest).position.toNat)) _ = _
  rw [hcount]
  rfl

/-- A position behind the end is what makes the subtraction fail. -/
example : remaining ⟨[], 1⟩ = .error (.trapped (.inexact (-1))) ⟨[], 1⟩ := rfl

theorem count_position (h : (front ++ (p ++ t)).length < 2 ^ 63) :
    count ((Cursor.between front (p ++ t)).position.toNat + p.length) = .ok (UInt64.ofNat (front ++ p).length) := by
  have hsum : (front ++ (p ++ t)).length = (front ++ p).length + t.length := by
    rw [← List.append_assoc, List.length_append]
  rw [toNat_position h]
  exact count_of_lt (by rw [List.length_append]; rfl) (by omega)

theorem advance_between {n : UInt64} (hn : n.toNat = p.length) (h : (front ++ (p ++ t)).length < 2 ^ 63) :
    advance n (.between front (p ++ t)) = .ok () (.between (front ++ p) t) := by
  have hdata : (Cursor.between front (p ++ t)).data = front ++ p ++ t := (List.append_assoc ..).symm
  have hsum : (front ++ p ++ t).length = (front ++ p).length + t.length := List.length_append
  have hposition : (UInt64.ofNat (front ++ p).length).toNat = (front ++ p).length := by
    rw [← List.append_assoc] at h
    exact toNat_ofNat_of_lt (by omega)
  rw [advance, get_bind, hn, count_position h, exactly_bind, hdata, if_pos (by omega)]
  rfl

theorem byte_between {b : UInt8} (h : (front ++ b :: t).length < 2 ^ 63) :
    byte (.between front (b :: t)) = .ok b (.between (front ++ [b]) t) := by
  rw [byte, get_bind, getElem?_position h]
  exact bind_of_ok (advance_between (p := [b]) rfl h) _

theorem previous_between {b : UInt8} (h : (front ++ [b] ++ t).length < 2 ^ 63) :
    previous (.between (front ++ [b]) t) = .ok [b] (.between (front ++ [b]) t) := by
  have hsum : (front ++ [b] ++ t).length = (front ++ [b]).length + t.length := List.length_append
  have hfront : (front ++ [b]).length = front.length + 1 := List.length_append
  have hstart : count ((Cursor.between (front ++ [b]) t).position.toNat - 1) = .ok (UInt64.ofNat front.length) := by
    rw [toNat_position h]
    exact count_of_lt (by omega) (by omega)
  rw [previous, get_bind, hstart, exactly_bind]
  change exactly (slice (front ++ [b] ++ t) (UInt64.ofNat front.length) (UInt64.ofNat (front ++ [b]).length)) _ = _
  rw [slice_append front [b] t (h.trans (by decide))]
  rfl

theorem take_between {n : UInt64} (hn : n.toNat = p.length) (h : (front ++ (p ++ t)).length < 2 ^ 63) :
    take n (.between front (p ++ t)) = .ok p (.between (front ++ p) t) := by
  have hdata : (Cursor.between front (p ++ t)).data = front ++ p ++ t := (List.append_assoc ..).symm
  have hsum : (front ++ (p ++ t)).length = front.length + (p.length + t.length) := by
    rw [List.length_append, List.length_append]
  have hslice : slice (front ++ p ++ t) (UInt64.ofNat front.length) (UInt64.ofNat (front ++ p).length) = .ok p :=
    slice_append front p t (by rw [List.append_assoc]; exact h.trans (by decide))
  have hleft : (UInt64.ofNat (p ++ t).length).toNat = p.length + t.length := by
    rw [List.length_append]
    exact toNat_ofNat_of_lt (by omega)
  have henough : ¬UInt64.ofNat (p ++ t).length < n := by
    rw [UInt64.lt_iff_toNat_lt, hleft, hn]
    omega
  rw [take, bind_of_ok (remaining_between h), Reader.rejectIf, if_neg henough, pure_bind, get_bind, hn,
    count_position h, exactly_bind, hdata]
  change (exactly (slice (front ++ p ++ t) (UInt64.ofNat front.length) (UInt64.ofNat (front ++ p).length)) >>= _) _ = _
  rw [hslice, exactly_bind]
  exact bind_of_ok (advance_between hn h) _

theorem follows_byte (h : P (.endOfInput 0 1)) : Follows P byte Decoder.byte := by
  intro front rest hsize
  cases rest with
  | nil =>
    refine FollowsAt.of_error h ?_ rfl
    rw [byte, get_bind, getElem?_position hsize]
    rfl
  | cons b t => exact ⟨[b], rfl, byte_between hsize⟩

theorem follows_peek (h : P (.endOfInput 0 1)) : Follows P peek Decoder.peek := by
  intro front rest hsize
  cases rest with
  | nil =>
    refine FollowsAt.of_error h ?_ rfl
    rw [peek, get_bind, getElem?_position hsize]
    rfl
  | cons b t =>
    refine FollowsAt.of_ok (a := ItemKind.classify b) ?_ rfl
    rw [peek, get_bind, getElem?_position hsize]
    rfl

theorem follows_finish (h : ∀ n, P (.trailingBytes n)) : Follows P finish Decoder.finish := by
  intro front rest hsize
  have hleft : (UInt64.ofNat rest.length).toNat = rest.length := by
    rw [List.length_append] at hsize
    exact toNat_ofNat_of_lt (by omega)
  cases rest with
  | nil =>
    refine FollowsAt.of_ok (a := ()) ?_ rfl
    rw [finish, bind_of_ok (remaining_between hsize)]
    rfl
  | cons b t =>
    have hne : UInt64.ofNat (b :: t).length ≠ 0 := by
      rw [ne_eq, ← UInt64.toNat_inj, hleft]
      exact Nat.succ_ne_zero _
    refine FollowsAt.of_error (h (b :: t).length) ?_ rfl
    rw [finish, bind_of_ok (remaining_between hsize), Reader.rejectIf, if_pos hne, hleft]
    rfl

/-- However large `n` is, the end of the slice is computed only where it lies in the buffer. -/
theorem follows_take (n : UInt64) (h : ∀ available, P (.endOfInput available n.toNat)) :
    Follows P (take n) (Decoder.take n) := by
  intro front rest hsize
  rcases Nat.lt_or_ge rest.length n.toNat with hshort | hlong
  · have hleft : (UInt64.ofNat rest.length).toNat = rest.length := by
      rw [List.length_append] at hsize
      exact toNat_ofNat_of_lt (by omega)
    have hless : UInt64.ofNat rest.length < n := by rwa [UInt64.lt_iff_toNat_lt, hleft]
    refine FollowsAt.of_error (h rest.length) ?_ (Decoder.take_cut hshort)
    rw [take, bind_of_ok (remaining_between hsize), Reader.rejectIf, if_pos hless, hleft]
    rfl
  · obtain ⟨p, t, rfl, hp⟩ : ∃ p t, rest = p ++ t ∧ p.length = n.toNat :=
      ⟨_, _, (List.take_append_drop n.toNat rest).symm, List.length_take_of_le hlong⟩
    rw [FollowsAt, Decoder.take_eq_ok.2 ⟨rfl, hp⟩]
    exact ⟨p, rfl, take_between hp.symm hsize⟩

end Slices

/-! Items -/

section Items

open Reader

theorem follows_longLength {w : UInt8} (h : w.toNat ≤ 8) : Follows Possible (longLength w) (Decoder.longLength w) := by
  have hnarrow : ¬8 < w := by
    rw [UInt8.lt_iff_toNat_lt]
    exact Nat.not_lt.2 h
  refine (follows_rejectIf fun hwide => absurd hwide hnarrow).bind fun _ _ => ?_
  refine (follows_take _ fun _ => trivial).bind fun field hfield => ?_
  obtain ⟨s, t, htake⟩ := hfield
  have hwidth : field.length ≤ 8 := by
    rw [(Decoder.take_eq_ok.1 htake).2, UInt8.toNat_toUInt64]
    exact h
  refine (follows_rejectIf fun _ => trivial).bind fun _ _ => ?_
  refine Follows.exactly_bind (joined_eq hwidth) ?_
  exact (follows_rejectIf fun _ => trivial).bind fun _ _ => follows_pure _

/-- The payload behind a lead byte and a length field. -/
theorem follows_long {base lead : UInt8} (h : base.toNat ≤ lead.toNat) (hwidth : lead.toNat ≤ base.toNat + 8) :
    Follows Possible (above base lead >>= fun w => longLength w >>= take)
      (Decoder.longLength (lead - base) >>= Decoder.take) := by
  have hsub : (lead - base).toNat = lead.toNat - base.toNat := UInt8.toNat_sub_of_le _ _ h
  refine Follows.exactly_bind (octet_sub h) ?_
  exact (follows_longLength (by omega)).bind fun n _ => follows_take n fun _ => trivial

theorem follows_stringPayload : Follows Possible stringPayload Decoder.stringPayload := by
  intro front rest hsize
  refine (follows_byte trivial front rest hsize).bind fun lead p t hrest hbyte => ?_
  have hcons : rest = [lead] ++ t := Decoder.byte_eq_ok.1 hbyte
  obtain rfl : p = [lead] := List.append_cancel_right (hrest.symm.trans hcons)
  have hsize' : (front ++ [lead] ++ t).length < 2 ^ 63 := by rwa [List.append_assoc, ← hrest]
  cases hk : ItemKind.classify lead with
  | singleByte => exact FollowsAt.of_ok (previous_between hsize') rfl
  | empty => exact follows_pure _ _ _ hsize'
  | shortString =>
    have hb : 0x81 ≤ lead.toNat ∧ lead.toNat ≤ 0xb7 := ItemKind.classify_eq_iff.1 hk
    have hbase : shortString.toNat = 0x80 := rfl
    refine Follows.exactly_bind (octet_sub (by omega)) ?_ _ _ hsize'
    refine (follows_take _ fun _ => trivial).bind fun payload _ => ?_
    exact (follows_rejectIf fun _ => trivial).bind fun _ _ => follows_pure payload
  | longString =>
    have hb : 0xb8 ≤ lead.toNat ∧ lead.toNat ≤ 0xbf := ItemKind.classify_eq_iff.1 hk
    have hbase : longString.toNat = 0xb7 := rfl
    exact follows_long (by omega) (by omega) _ _ hsize'
  | shortList => exact follows_throw trivial _ _ hsize'
  | longList => exact follows_throw trivial _ _ hsize'

theorem follows_listPayload : Follows Possible listPayload Decoder.listPayload := by
  refine (follows_byte trivial).bind fun lead _ => ?_
  cases hk : ItemKind.classify lead with
  | shortList =>
    have hb : 0xc0 ≤ lead.toNat ∧ lead.toNat ≤ 0xf7 := ItemKind.classify_eq_iff.1 hk
    exact Follows.exactly_bind (octet_sub hb.1) (follows_take _ fun _ => trivial)
  | longList =>
    have hb : 0xf8 ≤ lead.toNat ∧ lead.toNat ≤ 0xff := ItemKind.classify_eq_iff.1 hk
    have hbase : longList.toNat = 0xf7 := rfl
    exact follows_long (by omega) (by omega)
  | singleByte => exact follows_throw trivial
  | empty => exact follows_throw trivial
  | shortString => exact follows_throw trivial
  | longString => exact follows_throw trivial

theorem follows_bytes : Follows Possible bytes Decoder.bytes := follows_stringPayload.atomically

theorem follows_list : Follows Possible list Decoder.list := follows_listPayload.atomically

theorem follows_array (n : Nat) : Follows Possible (array n) (Decoder.array n) := by
  refine (follows_stringPayload.bind fun payload _ => ?_).atomically
  split
  · exact follows_pure _
  · exact follows_throw trivial

theorem follows_text : Follows Possible text Decoder.text := by
  refine (follows_stringPayload.bind fun payload _ => ?_).atomically
  cases Text.ofUtf8? payload with
  | some s => exact follows_pure s
  | none => exact follows_throw trivial

theorem follows_digits (capacity : Nat) : Follows Possible (digits capacity) (Decoder.digits capacity) := by
  refine follows_stringPayload.bind fun payload _ => ?_
  refine (follows_rejectIf fun _ => trivial).bind fun _ _ => ?_
  exact (follows_rejectIf fun _ => trivial).bind fun _ _ => follows_pure payload

theorem length_digits_le {capacity : Nat} {d : Bytes} (h : ∃ s t, Decoder.digits capacity s = .ok d t) :
    d.length ≤ capacity := by
  obtain ⟨s, t, h⟩ := h
  exact (Decoder.digits_eq_ok.1 h).2.2.1

theorem follows_unsigned {width : Nat} (h : width ≤ 8) :
    Follows Possible (unsigned width) (Decoder.unsigned width) := by
  refine ((follows_digits width).bind fun d hd => ?_).atomically
  rw [joined_eq ((length_digits_le hd).trans h)]
  exact follows_pure _

theorem follows_word : Follows Possible word Decoder.word := by
  refine ((follows_digits 32).bind fun d hd => ?_).atomically
  have hcount : 256 ^ 32 = Word.count := rfl
  have hlt : d.toNat < Word.count :=
    (Bytes.toNat_lt d).trans_le ((Nat.pow_le_pow_right (by decide) (length_digits_le hd)).trans_eq hcount)
  rw [fit_of_lt hlt]
  exact follows_pure _

/-- A number that was read in a machine word keeps its value in the type of its width. -/
theorem follows_narrowed {β : Type} (width : Nat) (h : width ≤ 8) (ofNat : Nat → β) :
    Follows Possible (narrowed (256 ^ width) ofNat width) ((fun n => ofNat n.toNat) <$> Decoder.unsigned width) := by
  rw [← bind_pure_comp]
  refine (follows_unsigned h).bind fun n hn => ?_
  obtain ⟨s, t, hn⟩ := hn
  rw [fit_of_lt ((Decoder.unsigned_eq_ok h).1 hn).2]
  exact follows_pure _

end Items

end Exact
end Wallet.Rlp
