import Wallet.Rlp.Encoder

/-! Nested items as trees, and their one encoding. -/

namespace Wallet.Rlp

inductive Tree
  | string (payload : Bytes)
  | list (items : List Tree)

namespace Tree

mutual

def encode : Tree → Bytes
  | .string payload => encodeString payload
  | .list items => encodeList (encodeAll items)

/-- The items one after the other. -/
def encodeAll : List Tree → Bytes
  | [] => []
  | item :: items => encode item ++ encodeAll items

end

end Tree
end Wallet.Rlp
