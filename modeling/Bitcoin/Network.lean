import Bitcoin.Error

/-!
# The two networks

Addresses and exported secrets begin with a version byte that tells the network and the kind of
payload apart; the six version bytes are all different.
-/

namespace Bitcoin

/-- The main network or the test network. -/
inductive Network
  | main
  | test
deriving DecidableEq

namespace Network

/-- Both networks, in the order in which a version byte is looked up. -/
def all : List Network := [.main, .test]

/-- The name of a network. -/
def name : Network → String
  | .main => "main"
  | .test => "test"

/-- The network of a name; the long names are understood too. -/
def ofName (text : String) : Except Error Network :=
  if text = "main" ∨ text = "mainnet" then .ok .main
  else if text = "test" ∨ text = "testnet" then .ok .test
  else .error (.malformed (.unknownNetwork text))

/-- Whether coins of this network are worthless. -/
def isTest : Network → Bool
  | .main => false
  | .test => true

/-- The version byte of an address that pays to a public key hash. -/
def keyHashVersion : Network → UInt8
  | .main => 0x00
  | .test => 0x6f

/-- The version byte of an address that pays to a script hash. -/
def scriptHashVersion : Network → UInt8
  | .main => 0x05
  | .test => 0xc4

/-- The version byte of an exported secret. -/
def secretVersion : Network → UInt8
  | .main => 0x80
  | .test => 0xef

end Network

end Bitcoin
