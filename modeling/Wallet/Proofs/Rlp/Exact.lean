import Wallet.Proofs.Outcome
import Wallet.Proofs.Rlp.Header
import Wallet.Rlp.Exact

/-! Arithmetic on the machine that stops at an inexact result. It goes on with a word exactly if the word is what was
computed (`count_eq_ok`, `octet_eq_ok`). So much can be said without knowing a reader: up to eight bytes are shifted
together as they are without checks (`joined_eq`), and so is a header put together (`header_eq`). -/

namespace Wallet.Rlp

namespace Exact

theorem fit_of_lt {β : Type} {size n : Nat} (h : n < size) (ofNat : Nat → β) :
    fit size ofNat n = .ok (ofNat n) := by
  rw [fit, if_pos ⟨Int.natCast_nonneg n, Int.ofNat_lt.2 h⟩, Int.toNat_natCast]

/-- A word is what was computed, or there is none. -/
theorem fit_eq_ok {β : Type} {size : Nat} {ofNat : Nat → β} {toNat : β → Nat} (hlt : ∀ b, toNat b < size)
    (hto : ∀ b, ofNat (toNat b) = b) (hof : ∀ n < size, toNat (ofNat n) = n) {z : Int} {b : β} :
    fit size ofNat z = .ok b ↔ z = toNat b := by
  constructor
  · intro h
    unfold fit at h
    split at h
    · obtain rfl := Except.ok.inj h
      rw [hof _ (by omega)]
      omega
    · cases h
  · rintro rfl
    rw [fit_of_lt (hlt b), hto]

theorem count_eq_ok {z : Int} {n : UInt64} : count z = .ok n ↔ z = n.toNat :=
  fit_eq_ok UInt64.toNat_lt (fun _ => UInt64.ofNat_toNat) fun _ => UInt64.toNat_ofNat_of_lt'

theorem octet_eq_ok {z : Int} {n : UInt8} : octet z = .ok n ↔ z = n.toNat :=
  fit_eq_ok UInt8.toNat_lt (fun _ => UInt8.ofNat_toNat) fun _ => UInt8.toNat_ofNat_of_lt'

theorem count_eq {n : Nat} {z : Int} (hz : z = n) (h : n < UInt64.size) : count z = .ok (UInt64.ofNat n) := by
  rw [count_eq_ok, UInt64.toNat_ofNat_of_lt' h, hz]

/-- What a lead byte holds above its base, if it is not below it. -/
theorem octet_sub {base lead : UInt8} (h : base.toNat ≤ lead.toNat) :
    octet (lead.toNat - base.toNat) = .ok (lead - base) := by
  rw [octet_eq_ok, UInt8.toNat_sub_of_le _ _ h]
  omega

theorem octet_add {base n : UInt8} (h : base.toNat + n.toNat < 256) :
    octet (base.toNat + n.toNat) = .ok (base + n) := by
  rw [octet_eq_ok, UInt8.toNat_add]
  omega

theorem slice_append (a b c : Bytes) (h : (a ++ b ++ c).length < UInt64.size) :
    slice (a ++ b ++ c) (UInt64.ofNat a.length) (UInt64.ofNat (a ++ b).length) = .ok b := by
  have hlen : (a ++ b ++ c).length = (a ++ b).length + c.length := List.length_append
  have hab : (a ++ b).length = a.length + b.length := List.length_append
  have hstart : (UInt64.ofNat a.length).toNat = a.length := UInt64.toNat_ofNat_of_lt' (by omega)
  have hstop : (UInt64.ofNat (a ++ b).length).toNat = (a ++ b).length := UInt64.toNat_ofNat_of_lt' (by omega)
  have hle : UInt64.ofNat a.length ≤ UInt64.ofNat (a ++ b).length := by
    rw [UInt64.le_iff_toNat_le, hstart, hstop, hab]
    exact Nat.le_add_right _ _
  rw [slice, hstart, hstop, if_pos ⟨hle, by omega⟩, List.take_left, List.drop_left]

/-- Up to eight bytes are shifted together without a carry out of the word. -/
theorem joined_eq {digits : Bytes} (h : digits.length ≤ 8) : joined digits = .ok (Decoder.joined digits) := by
  induction digits using List.reverseRecOn with
  | nil => rfl
  | append_singleton init b ih =>
    have hlen : (init ++ [b]).length = init.length + 1 := List.length_append
    have hinit : init.length ≤ 8 := by omega
    have hnat : (Decoder.joined init).toNat * 256 + b.toNat = (Decoder.joined (init ++ [b])).toNat := by
      rw [Decoder.toNat_joined h, Decoder.toNat_joined hinit, Bytes.toNat_concat]
    have hstep : joined (init ++ [b]) = (joined init >>= fun n => count (n.toNat * 256 + b.toNat)) := by
      rw [joined, List.foldlM_append]
      simp [joined]
    rw [hstep, ih hinit, Outcome.ok_bind, count_eq_ok]
    exact_mod_cast hnat

/-- Nine bytes may be too much for a word. -/
example : joined [1, 0, 0, 0, 0, 0, 0, 0, 0] = .error (.inexact 18446744073709551616) := by decide

section LengthField

variable {zeros field : Bytes}

theorem firstNonzero_append (hzeros : ∀ b ∈ zeros, b = 0) (hne : field ≠ []) (hfield : field.head? ≠ some 0)
    (h : (zeros ++ field).length < UInt64.size) :
    firstNonzero (zeros ++ field) = .ok (UInt64.ofNat zeros.length) := by
  have hpos := List.length_pos_iff.2 hne
  have hlen : (zeros ++ field).length = zeros.length + field.length := List.length_append
  have hlast : count ((zeros ++ field).length - 1) = .ok (UInt64.ofNat ((zeros ++ field).length - 1)) :=
    count_eq (by omega) (by omega)
  have hfind : (zeros ++ field).findIdx? (· != 0) = some zeros.length := by
    obtain ⟨b, rest, rfl⟩ := List.exists_cons_of_ne_nil hne
    have hb : b ≠ 0 := by simpa using hfield
    rw [List.findIdx?_append, List.findIdx?_eq_none_iff.2 (by simpa using hzeros)]
    simp [List.findIdx?_cons, hb]
  rw [firstNonzero, hlast, Outcome.ok_bind, hfind]
  exact count_eq rfl (by omega)

theorem significant_append (hzeros : ∀ b ∈ zeros, b = 0) (hne : field ≠ []) (hfield : field.head? ≠ some 0)
    (h : (zeros ++ field).length < UInt64.size) :
    significant (zeros ++ field) = .ok (UInt64.ofNat field.length, field) := by
  have hlen : (zeros ++ field).length = zeros.length + field.length := List.length_append
  have hstart : (UInt64.ofNat zeros.length).toNat = zeros.length := UInt64.toNat_ofNat_of_lt' (by omega)
  have hwidth : count ((zeros ++ field).length - (UInt64.ofNat zeros.length).toNat) =
      .ok (UInt64.ofNat field.length) := by
    rw [hstart]
    exact count_eq (by omega) (by omega)
  have hslice := slice_append zeros field [] (by rwa [List.append_nil])
  rw [List.append_nil] at hslice
  rw [significant, firstNonzero_append hzeros hne hfield h, Outcome.ok_bind, hwidth, Outcome.ok_bind,
    count_eq rfl h, Outcome.ok_bind, hslice]
  rfl

/-- A run of bytes is its leading zeros and what `strip` leaves of it. -/
theorem exists_zeros (digits : Bytes) : ∃ zeros, (∀ b ∈ zeros, b = 0) ∧ digits = zeros ++ Bytes.strip digits := by
  refine ⟨digits.takeWhile (· == 0), fun b hb => ?_, List.takeWhile_append_dropWhile.symm⟩
  exact beq_iff_eq.1 (List.all_eq_true.1 List.all_takeWhile b hb)

theorem significant_eq {digits : Bytes} (hne : Bytes.strip digits ≠ []) (h : digits.length < UInt64.size) :
    significant digits = .ok (UInt64.ofNat (Bytes.strip digits).length, Bytes.strip digits) := by
  obtain ⟨zeros, hzeros, hdigits⟩ := exists_zeros digits
  rw [hdigits] at h
  have hcut := significant_append hzeros hne (Bytes.head?_strip digits) h
  rwa [← hdigits] at hcut

end LengthField

theorem header_eq {length : Nat} {short long : UInt8} (h : length < UInt64.size) (hshort : short.toNat + 55 < 256)
    (hlong : long.toNat + 8 < 256) : header (UInt64.ofNat length) short long = .ok (Rlp.header length short long) := by
  have hlength : (UInt64.ofNat length).toNat = length := UInt64.toNat_ofNat_of_lt' h
  have hlow {n : Nat} (hn : n ≤ 55) : (UInt8.ofNat n).toNat = n := UInt8.toNat_ofNat_of_lt' (hn.trans_lt (by decide))
  have hoctet {n : Nat} (hn : n ≤ 55) : octet n = .ok (UInt8.ofNat n) := octet_eq_ok.2 (by rw [hlow hn])
  rw [header, hlength]
  rcases Nat.lt_or_ge length longFrom with hlen | hlen
  · have hlen' : length ≤ 55 := Nat.le_of_lt_succ hlen
    rw [if_pos hlen, header_short hlen, hoctet hlen', Outcome.ok_bind, octet_add (by rw [hlow hlen']; omega),
      Outcome.ok_bind]
    rfl
  · have hfield : (lengthField length).length ≤ 8 := length_lengthField_le length
    have hpos := length_lengthField_pos h (Nat.lt_of_lt_of_le (by decide) hlen)
    have hwidth : (UInt64.ofNat (lengthField length).length).toNat = (lengthField length).length :=
      UInt64.toNat_ofNat_of_lt' (hfield.trans_lt (by decide))
    have hcut : significant (Bytes.ofNat 8 length) =
        .ok (UInt64.ofNat (lengthField length).length, lengthField length) :=
      significant_eq (List.length_pos_iff.1 hpos) (by rw [Bytes.length_ofNat]; decide)
    have hfield' : (lengthField length).length ≤ 55 := by omega
    rw [if_neg (Nat.not_lt.2 hlen), header_long hlen, hcut, Outcome.ok_bind]
    simp only [hwidth]
    rw [hoctet hfield', Outcome.ok_bind, octet_add (by rw [hlow hfield']; omega), Outcome.ok_bind]
    rfl

/-- How the header of `length` bytes is written: the sums that make its lead byte are at most the last lead bytes of
the short and of the long form, and a length field has one to eight bytes, of which the first is not zero. -/
structure HeaderIsExact (length : Nat) (short long lastShort lastLong : UInt8) : Prop where
  written : header (UInt64.ofNat length) short long = .ok (Rlp.header length short long)
  ofShort : length < 56 →
    short.toNat + length ≤ lastShort.toNat ∧ Rlp.header length short long = [short + UInt8.ofNat length]
  ofLong : 56 ≤ length → ∃ field : Bytes,
    Rlp.header length short long = (long + UInt8.ofNat field.length) :: field ∧
      long.toNat + field.length ≤ lastLong.toNat ∧ 1 ≤ field.length ∧ field.length ≤ 8 ∧ field.head? ≠ some 0 ∧
        field.toNat = length

theorem headerIsExact {length : Nat} {short long lastShort lastLong : UInt8} (h : length < UInt64.size)
    (hshort : short.toNat + 55 = lastShort.toNat) (hlong : long.toNat + 8 = lastLong.toNat) :
    HeaderIsExact length short long lastShort lastLong := by
  have hlastShort := lastShort.toNat_lt
  have hlastLong := lastLong.toNat_lt
  refine ⟨header_eq h (by omega) (by omega), fun hlen => ⟨by omega, header_short hlen short long⟩, fun hlen => ?_⟩
  have hwidth := length_lengthField_le length
  have hpos := length_lengthField_pos h (by omega)
  exact ⟨lengthField length, header_long hlen short long, by omega, hpos, hwidth, Bytes.head?_strip _,
    toNat_lengthField h⟩

end Exact
end Wallet.Rlp
