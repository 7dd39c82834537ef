/-! Chain identifiers and their names. -/

namespace Wallet.Network

def mainnet : UInt64 := 1
def goerli : UInt64 := 5
def sepolia : UInt64 := 11155111

/-- The name of a chain, the number of an unknown one. No chain at all is the legacy scheme. -/
def name : Option UInt64 → String
  | none => "legacy"
  | some id =>
    if id = mainnet then "mainnet"
    else if id = goerli then "goerli"
    else if id = sepolia then "sepolia"
    else s!"unknown({id})"

end Wallet.Network
