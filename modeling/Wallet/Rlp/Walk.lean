import Wallet.Rlp.Decoder
import Wallet.Rlp.Tree

/-! A depth-first walk over nested items: at each item its class is looked at, a list is entered
and left again, a string is read. The walk stops at the first item that cannot be read. -/

namespace Wallet.Rlp

inductive Token
  | openList
  | closeList
  | string (payload : Bytes)
  deriving DecidableEq, Repr

mutual

def Tree.tokens : Tree → List Token
  | .string payload => [.string payload]
  | .list items => .openList :: Tree.tokensAll items ++ [.closeList]

def Tree.tokensAll : List Tree → List Token
  | [] => []
  | item :: items => Tree.tokens item ++ Tree.tokensAll items

end

/-- Where a walk stopped: the lists that are open there, and what is left of the innermost one. -/
structure Walk.Failure where
  error : Error
  depth : Nat
  remaining : Nat
  deriving DecidableEq, Repr

structure Walk where
  tokens : List Token
  failure : Option Walk.Failure
  deriving DecidableEq, Repr

namespace Walk

/-- What is left to walk: two for each byte, and one for each list that is still to be closed. -/
def work (rest : Bytes) : List Bytes → Nat
  | [] => 2 * rest.length
  | outer :: enclosing => 2 * rest.length + 1 + work outer enclosing

theorem work_eq (rest : Bytes) (enclosing : List Bytes) :
    work rest enclosing = 2 * rest.length + work [] enclosing := by
  cases enclosing <;> simp [work, Nat.add_assoc]

/-- Walks `rest`, then what is left of each enclosing list; `seen` holds the tokens so far, the last
one first. -/
def resume (rest : Bytes) (enclosing : List Bytes) (seen : List Token) : Walk :=
  match rest, enclosing with
  | [], [] => ⟨seen.reverse, none⟩
  | [], outer :: enclosing => resume outer enclosing (.closeList :: seen)
  | lead :: tail, enclosing =>
    if (ItemKind.classify lead).isList then
      match _h : Decoder.list (lead :: tail) with
      | .ok payload rest => resume payload (rest :: enclosing) (.openList :: seen)
      | .error e rest => ⟨seen.reverse, some ⟨e, enclosing.length, rest.length⟩⟩
    else
      match _h : Decoder.bytes (lead :: tail) with
      | .ok payload rest => resume rest enclosing (.string payload :: seen)
      | .error e rest => ⟨seen.reverse, some ⟨e, enclosing.length, rest.length⟩⟩
termination_by work rest enclosing
decreasing_by
  · simp [work]
  · obtain ⟨front, hne, hs⟩ := Decoder.list_consumes _h
    have := List.length_pos_iff.2 hne
    rw [hs, work, work_eq rest, work_eq (_ ++ _ ++ _)]
    simp only [List.length_append]
    omega
  · obtain ⟨front, hne, hs⟩ := Decoder.bytes_consumes _h
    have := List.length_pos_iff.2 hne
    rw [hs, work_eq rest, work_eq (_ ++ _ ++ _)]
    simp only [List.length_append] at *
    omega

end Walk

/-- The walk over all items of `data`. -/
def walk (data : Bytes) : Walk := Walk.resume data [] []

end Wallet.Rlp
