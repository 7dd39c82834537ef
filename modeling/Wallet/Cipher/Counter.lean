import Wallet.Cipher.Aes

/-! Counter mode: the key stream is the encryption of successive counters, which start at a given
block, are 128-bit big-endian numbers and wrap around. Main statement: `apply_apply`, the same
stream takes off what it has put on. -/

namespace Wallet.Counter

/-- The counter `i` steps after `start`. -/
def counter (start : Aes.Block) (i : Nat) : Aes.Block :=
  Bytes.toVector (Bytes.ofNat 16 (Bytes.toNat start.toList + i)) (Bytes.length_ofNat 16 _)

/-- Enough whole blocks of key stream for `length` bytes. -/
def stream (key start : Aes.Block) (length : Nat) : Bytes :=
  (List.range ((length + 15) / 16)).flatMap fun i => (Aes.encrypt key (counter start i)).toList

def apply (key start : Aes.Block) (text : Bytes) : Bytes := text.xor (stream key start text.length)

theorem length_stream (key start : Aes.Block) (length : Nat) :
    (stream key start length).length = 16 * ((length + 15) / 16) := by
  simp [stream, List.length_flatMap, List.map_const', Nat.mul_comm]

@[simp]
theorem length_apply (key start : Aes.Block) (text : Bytes) :
    (apply key start text).length = text.length := by
  simp only [apply, Bytes.xor, List.length_zipWith, length_stream]
  omega

theorem xor_xor (as bs : Bytes) (h : as.length ≤ bs.length) : (as.xor bs).xor bs = as := by
  induction as generalizing bs with
  | nil => simp [Bytes.xor]
  | cons a as ih =>
    cases bs with
    | nil => simp at h
    | cons b bs =>
      have := ih bs (by simpa using h)
      simp only [Bytes.xor, List.zipWith_cons_cons, UInt8.xor_assoc, UInt8.xor_self, UInt8.xor_zero] at *
      rw [this]

theorem apply_apply (key start : Aes.Block) (text : Bytes) : apply key start (apply key start text) = text := by
  have h : text.length ≤ (stream key start text.length).length := by rw [length_stream]; omega
  show (apply key start text).xor (stream key start (apply key start text).length) = text
  rw [length_apply]
  exact xor_xor _ _ h

end Wallet.Counter
