import Wallet.Key.Private

/-! A source of random bytes as a tape: the bytes not yet read, and after them the byte 1 for ever.
Private keys are drawn from it in blocks of 32 bytes until one is in range. -/

namespace Wallet

structure Tape where
  unread : Bytes
  drawn : Nat
  deriving DecidableEq, Repr

namespace Tape

def ofBytes (bs : Bytes) : Tape := ⟨bs, 0⟩

/-- The next `n` bytes. -/
def take (tape : Tape) (n : Nat) : Bytes := List.ofFn fun i : Fin n => tape.unread.getD i 1

@[simp]
theorem length_take (tape : Tape) (n : Nat) : (tape.take n).length = n := by simp [take]

/-- The tape behind the next `n` bytes. -/
def advance (tape : Tape) (n : Nat) : Tape := ⟨tape.unread.drop n, tape.drawn + n⟩

theorem take_exhausted (tape : Tape) (n : Nat) (h : tape.unread = []) :
    tape.take n = List.replicate n 1 := by
  apply List.ext_getElem <;> simp [take, h]

end Tape

theorem PrivateKey.ofBytes_ones : ∃ key, PrivateKey.ofBytes (List.replicate 32 1) = .ok key := by
  rw [PrivateKey.ofBytes, if_pos (by simp [PrivateKey.size])]
  exact PrivateKey.ofNat_eq_ok (by decide) (by decide)

/-- The next block, if it is a private key. -/
def Tape.key? (tape : Tape) : Option PrivateKey := (PrivateKey.ofBytes (tape.take 32)).toOption

theorem Tape.unread_ne_nil (tape : Tape) (h : tape.key? = none) : tape.unread ≠ [] := fun hnil => by
  obtain ⟨key, hk⟩ := PrivateKey.ofBytes_ones
  rw [Tape.key?, Tape.take_exhausted tape 32 hnil, hk] at h
  cases h

/-- The first block of the tape that is a private key, and the tape behind it. -/
def Tape.drawKey (tape : Tape) : PrivateKey × Tape :=
  match _h : tape.key? with
  | some key => (key, tape.advance 32)
  | none => (tape.advance 32).drawKey
termination_by tape.unread.length
decreasing_by
  have := List.length_pos_iff.2 (tape.unread_ne_nil _h)
  simp only [Tape.advance, List.length_drop]
  omega

end Wallet
