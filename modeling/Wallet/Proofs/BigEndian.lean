import Mathlib.Data.List.Induction
import Mathlib.Data.Nat.Digits.Lemmas
import Mathlib.Tactic.Positivity
import Mathlib.Tactic.Ring
import Wallet.Word

/-! Runs of big-endian bytes against the numbers they write. A run that does not start with a zero
byte is determined by its number alone (`eq_of_toNat_eq`), so a number has the same shortest form in
every width that holds it (`strip_ofNat_width`). -/

namespace Wallet.Bytes

theorem toNat_lt (bs : Bytes) : toNat bs < 256 ^ bs.length := by
  induction bs using List.reverseRecOn with
  | nil => simp
  | append_singleton init b ih =>
    have hb := b.toNat_lt
    rw [toNat_concat, List.length_append, List.length_singleton, pow_succ]
    omega

/-- The bytes of a number that is too large for its width are those of its remainder. -/
theorem toNat_ofNat_mod (width n : Nat) : toNat (ofNat width n) = n % 256 ^ width := by
  induction width generalizing n with
  | zero => simp [ofNat, Nat.mod_one]
  | succ w ih =>
    rw [ofNat, toNat_concat, ih, UInt8.toNat_ofNat', pow_succ' 256, Nat.mod_mul]
    omega

theorem toNat_ofNat {width n : Nat} (h : n < 256 ^ width) : toNat (ofNat width n) = n := by
  rw [toNat_ofNat_mod, Nat.mod_eq_of_lt h]

theorem toNat_cons (b : UInt8) (bs : Bytes) :
    toNat (b :: bs) = b.toNat * 256 ^ bs.length + toNat bs := by
  induction bs using List.reverseRecOn with
  | nil => simp [toNat]
  | append_singleton init c ih =>
    rw [← List.cons_append, toNat_concat, toNat_concat, ih, List.length_append,
      List.length_singleton, pow_succ]
    ring

/-- The run without the zero bytes that it starts with. -/
def strip (bs : Bytes) : Bytes := bs.dropWhile (· == 0)

theorem strip_cons_zero (bs : Bytes) : strip (0 :: bs) = strip bs := rfl

theorem strip_cons_of_ne {b : UInt8} (h : b ≠ 0) (bs : Bytes) : strip (b :: bs) = b :: bs := by
  simp [strip, h]

theorem head?_strip (bs : Bytes) : (strip bs).head? ≠ some 0 := by
  induction bs with
  | nil => simp [strip]
  | cons b bs ih =>
    by_cases hb : b = 0
    · rwa [hb, strip_cons_zero]
    · simpa [strip_cons_of_ne hb] using hb

theorem toNat_strip (bs : Bytes) : toNat (strip bs) = toNat bs := by
  induction bs with
  | nil => rfl
  | cons b bs ih =>
    by_cases hb : b = 0
    · rw [hb, strip_cons_zero, ih, toNat_cons]
      simp
    · rw [strip_cons_of_ne hb]

theorem length_strip_le (bs : Bytes) : (strip bs).length ≤ bs.length :=
  (List.dropWhile_sublist _).length_le

theorem length_strip_ofNat_le (width n : Nat) : (strip (ofNat width n)).length ≤ width :=
  (length_strip_le _).trans_eq (length_ofNat width n)

/-- A first byte that is not zero bounds the number from below. -/
theorem pow_le_toNat {b : UInt8} {bs : Bytes} (h : (b :: bs).head? ≠ some 0) :
    256 ^ bs.length ≤ toNat (b :: bs) := by
  have hb : 0 < b.toNat := by
    rw [Nat.pos_iff_ne_zero, ne_eq, ← UInt8.toNat_zero, UInt8.toNat_inj]
    simpa using h
  rw [toNat_cons]
  exact (Nat.le_mul_of_pos_left _ hb).trans (Nat.le_add_right _ _)

/-- A run that does not start with a zero byte is as long as its number has digits to the base 256. -/
theorem length_eq_length_digits {bs : Bytes} (h : bs.head? ≠ some 0) :
    bs.length = (Nat.digits 256 (toNat bs)).length := by
  apply le_antisymm
  · cases bs with
    | nil => exact Nat.zero_le _
    | cons b bs => exact (Nat.lt_digits_length_iff (by decide) _).2 (pow_le_toNat h)
  · exact (Nat.digits_length_le_iff (by decide) _).2 (toNat_lt bs)

theorem length_le_of_toNat_le {a b : Bytes} (ha : a.head? ≠ some 0) (h : toNat a ≤ toNat b) :
    a.length ≤ b.length := by
  cases a with
  | nil => exact Nat.zero_le _
  | cons x xs =>
    have hlt : 256 ^ xs.length < 256 ^ b.length :=
      (pow_le_toNat ha).trans_lt (h.trans_lt (toNat_lt b))
    exact (Nat.pow_lt_pow_iff_right (by decide)).1 hlt

theorem eq_of_toNat_eq {a b : Bytes} (ha : a.head? ≠ some 0) (hb : b.head? ≠ some 0)
    (h : toNat a = toNat b) : a = b := by
  have hlen : a.length = b.length :=
    le_antisymm (length_le_of_toNat_le ha h.le) (length_le_of_toNat_le hb h.ge)
  rw [← ofNat_toNat a, ← ofNat_toNat b, hlen, h]

/-- Writing the number of a shortest form in a width that holds it, and stripping, changes nothing. -/
theorem strip_ofNat_toNat {d : Bytes} {width : Nat} (hd : d.head? ≠ some 0) (hw : d.length ≤ width) :
    strip (ofNat width (toNat d)) = d := by
  have hlt : toNat d < 256 ^ width :=
    (toNat_lt d).trans_le (Nat.pow_le_pow_right (by decide) hw)
  apply eq_of_toNat_eq (head?_strip _) hd
  rw [toNat_strip, toNat_ofNat hlt]

theorem strip_ofNat_width {v w n : Nat} (hv : n < 256 ^ v) (hw : n < 256 ^ w) :
    strip (ofNat v n) = strip (ofNat w n) := by
  apply eq_of_toNat_eq (head?_strip _) (head?_strip _)
  rw [toNat_strip, toNat_strip, toNat_ofNat hv, toNat_ofNat hw]

end Wallet.Bytes

namespace Wallet.Word

theorem toNat_lt_pow (w : Word) : w.toNat < 256 ^ 32 := w.isLt

@[simp]
theorem toNat_toBytes (w : Word) : w.toBytes.toNat = w.toNat := Bytes.toNat_ofNat w.toNat_lt_pow

theorem ofBytes_toBytes (w : Word) : ofBytes w.toBytes = w := by
  rw [ofBytes, toNat_toBytes, BitVec.ofNat_toNat, BitVec.setWidth_eq]

theorem ofBytes_strip (w : Word) : ofBytes (Bytes.strip w.toBytes) = w := by
  rw [ofBytes, Bytes.toNat_strip, toNat_toBytes, BitVec.ofNat_toNat, BitVec.setWidth_eq]

/-- Up to 32 bytes are read without loss. -/
theorem toNat_ofBytes {bs : Bytes} (h : bs.length ≤ 32) : (ofBytes bs).toNat = bs.toNat := by
  have hlt : bs.toNat < 256 ^ 32 := (Bytes.toNat_lt bs).trans_le (Nat.pow_le_pow_right (by decide) h)
  rw [ofBytes, BitVec.toNat_ofNat]
  exact Nat.mod_eq_of_lt hlt

theorem toBytes_ofBytes {bs : Bytes} (h : bs.length = 32) : (ofBytes bs).toBytes = bs := by
  rw [toBytes, toNat_ofBytes h.le, ← h, Bytes.ofNat_toNat]

end Wallet.Word
