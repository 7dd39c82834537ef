/-! Byte strings, and numbers as runs of big-endian bytes. Main statement: `ofNat_toNat`, a run of
bytes is determined by its number and its width. -/

namespace Wallet

abbrev Bytes := List UInt8

namespace Bytes

/-- The number that a run of bytes writes, most significant byte first. -/
def toNat (bs : Bytes) : Nat := bs.foldl (fun n b => n * 256 + b.toNat) 0

/-- The `width` low bytes of a number, most significant byte first. -/
def ofNat : Nat → Nat → Bytes
  | 0, _ => []
  | width + 1, n => ofNat width (n / 256) ++ [UInt8.ofNat n]

@[simp]
theorem length_ofNat (width n : Nat) : (ofNat width n).length = width := by
  induction width generalizing n with
  | zero => rfl
  | succ w ih => simp [ofNat, ih]

@[simp]
theorem toNat_nil : toNat [] = 0 := rfl

@[simp]
theorem toNat_concat (bs : Bytes) (b : UInt8) : toNat (bs ++ [b]) = toNat bs * 256 + b.toNat := by
  simp [toNat]

theorem eq_nil_or_concat (bs : Bytes) : bs = [] ∨ ∃ init b, bs = init ++ [b] := by
  rcases List.eq_nil_or_concat bs with h | ⟨init, b, h⟩
  · exact Or.inl h
  · exact Or.inr ⟨init, b, by simpa using h⟩

theorem ofNat_toNat (bs : Bytes) : ofNat bs.length (toNat bs) = bs := by
  generalize h : bs.length = w
  induction w generalizing bs with
  | zero => simpa [ofNat] using (List.length_eq_zero_iff.1 h).symm
  | succ w ih =>
    obtain rfl | ⟨init, b, rfl⟩ := eq_nil_or_concat bs
    · simp at h
    · have hb := b.toNat_lt
      have hd : (toNat init * 256 + b.toNat) / 256 = toNat init := by omega
      rw [ofNat, toNat_concat, hd, ih init (by simpa using h)]
      congr 2
      rw [← UInt8.toNat_inj]
      simp only [UInt8.toNat_ofNat']
      omega

/-- The first `count` runs of `width` bytes. -/
def chunks (width : Nat) : Nat → Bytes → List Bytes
  | 0, _ => []
  | count + 1, bs => bs.take width :: chunks width count (bs.drop width)

/-- Bytewise exclusive or, as long as the shorter of the two. -/
def xor (as bs : Bytes) : Bytes := List.zipWith (· ^^^ ·) as bs

/-- A byte string known to have `n` bytes. -/
def toVector (bs : Bytes) {n : Nat} (h : bs.length = n) : Vector UInt8 n := ⟨bs.toArray, by simpa using h⟩

@[simp]
theorem toList_toVector (bs : Bytes) {n : Nat} (h : bs.length = n) : (toVector bs h).toList = bs := by
  simp [toVector, Vector.toList]

end Bytes
end Wallet
