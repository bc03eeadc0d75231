import Bitcoin.Bytes.Hex

/-!
# Opcodes and their names

An opcode is a byte. The codes that do something are named here by what they do; what they do is
said with the operations. The text of a script has a name of its own for zero and for each code from
76 to 185.
-/

namespace Bitcoin.Opcode

/-! ## Pushes -/

/-- Pushes the empty string. -/
@[match_pattern]
def pushEmpty : UInt8 := 0x00

/-- Pushes the bytes whose length is in the next byte. -/
@[match_pattern]
def pushData1 : UInt8 := 0x4c

/-- Pushes the bytes whose length is in the next two bytes. -/
@[match_pattern]
def pushData2 : UInt8 := 0x4d

/-- Pushes minus one. -/
@[match_pattern]
def pushMinusOne : UInt8 := 0x4f

/-- Pushes a number from 1 to 16. -/
def push (n : UInt8) : UInt8 := 0x50 + n

/-- Pushes one. -/
def pushOne : UInt8 := push 1

/-! ## Conditionals and failure -/

/-- Does nothing. -/
@[match_pattern]
def nop : UInt8 := 0x61

/-- Opens a conditional that runs its first part on true. -/
@[match_pattern]
def ifTrue : UInt8 := 0x63

/-- Opens a conditional that runs its first part on false. -/
@[match_pattern]
def ifFalse : UInt8 := 0x64

/-- Separates the two parts of a conditional. -/
@[match_pattern]
def orElse : UInt8 := 0x67

/-- Closes a conditional. -/
@[match_pattern]
def endIf : UInt8 := 0x68

/-- Takes the top element and fails unless it is true. -/
@[match_pattern]
def verify : UInt8 := 0x69

/-- Fails. -/
@[match_pattern]
def fail : UInt8 := 0x6a

/-! ## Moving elements -/

/-- Moves the top element to the other stack. -/
@[match_pattern]
def toAlt : UInt8 := 0x6b

/-- Moves the top element of the other stack back. -/
@[match_pattern]
def fromAlt : UInt8 := 0x6c

/-- Drops the top two elements. -/
@[match_pattern]
def drop2 : UInt8 := 0x6d

/-- Copies the top two elements. -/
@[match_pattern]
def dup2 : UInt8 := 0x6e

/-- Copies the top three elements. -/
@[match_pattern]
def dup3 : UInt8 := 0x6f

/-- Copies the third and the fourth element. -/
@[match_pattern]
def over2 : UInt8 := 0x70

/-- Moves the fifth and the sixth element to the top. -/
@[match_pattern]
def rot2 : UInt8 := 0x71

/-- Moves the third and the fourth element to the top. -/
@[match_pattern]
def swap2 : UInt8 := 0x72

/-- Copies the top element when it is true. -/
@[match_pattern]
def ifDup : UInt8 := 0x73

/-- Puts the number of elements on the stack. -/
@[match_pattern]
def depth : UInt8 := 0x74

/-- Drops the top element. -/
@[match_pattern]
def drop : UInt8 := 0x75

/-- Copies the top element. -/
@[match_pattern]
def dup : UInt8 := 0x76

/-- Drops the element below the top. -/
@[match_pattern]
def nip : UInt8 := 0x77

/-- Copies the element below the top. -/
@[match_pattern]
def copySecond : UInt8 := 0x78

/-- Copies the element at a depth that is taken from the stack. -/
@[match_pattern]
def pick : UInt8 := 0x79

/-- Moves the element at a depth that is taken from the stack to the top. -/
@[match_pattern]
def roll : UInt8 := 0x7a

/-- Moves the third element to the top. -/
@[match_pattern]
def rot : UInt8 := 0x7b

/-- Swaps the top two elements. -/
@[match_pattern]
def swap : UInt8 := 0x7c

/-- Copies the top element below the second. -/
@[match_pattern]
def tuck : UInt8 := 0x7d

/-- Puts the length of the top element on the stack. -/
@[match_pattern]
def size : UInt8 := 0x82

/-! ## Comparison and arithmetic -/

/-- Compares the top two elements. -/
@[match_pattern]
def equal : UInt8 := 0x87

/-- Compares the top two elements and fails when they differ. -/
@[match_pattern]
def equalVerify : UInt8 := 0x88

/-- Adds one. -/
@[match_pattern]
def increment : UInt8 := 0x8b

/-- Takes one off. -/
@[match_pattern]
def decrement : UInt8 := 0x8c

/-- Turns the sign of a number. -/
@[match_pattern]
def negate : UInt8 := 0x8f

/-- Drops the sign of a number. -/
@[match_pattern]
def abs : UInt8 := 0x90

/-- Replaces zero with one, and any other number with zero. -/
@[match_pattern]
def not : UInt8 := 0x91

/-- Replaces zero with zero, and any other number with one. -/
@[match_pattern]
def isNonZero : UInt8 := 0x92

/-- Adds two numbers. -/
@[match_pattern]
def add : UInt8 := 0x93

/-- Takes the upper number off the lower. -/
@[match_pattern]
def sub : UInt8 := 0x94

/-- Multiplies two numbers. -/
@[match_pattern]
def mul : UInt8 := 0x95

/-- Whether both numbers are other than zero. -/
@[match_pattern]
def both : UInt8 := 0x9a

/-- Whether one of two numbers is other than zero. -/
@[match_pattern]
def either : UInt8 := 0x9b

/-- Whether two numbers are equal. -/
@[match_pattern]
def numEqual : UInt8 := 0x9c

/-- Fails unless two numbers are equal. -/
@[match_pattern]
def numEqualVerify : UInt8 := 0x9d

/-- Whether two numbers differ. -/
@[match_pattern]
def numNotEqual : UInt8 := 0x9e

/-- Whether the lower number is below the upper. -/
@[match_pattern]
def less : UInt8 := 0x9f

/-- Whether the lower number is above the upper. -/
@[match_pattern]
def greater : UInt8 := 0xa0

/-- Whether the lower number is at most the upper. -/
@[match_pattern]
def lessOrEqual : UInt8 := 0xa1

/-- Whether the lower number is at least the upper. -/
@[match_pattern]
def greaterOrEqual : UInt8 := 0xa2

/-- The smaller of two numbers. -/
@[match_pattern]
def min : UInt8 := 0xa3

/-- The larger of two numbers. -/
@[match_pattern]
def max : UInt8 := 0xa4

/-- Whether a number lies between two bounds. -/
@[match_pattern]
def within : UInt8 := 0xa5

/-! ## Digests and signatures -/

/-- Replaces the top element with its RIPEMD-160 digest. -/
@[match_pattern]
def ripemd160 : UInt8 := 0xa6

/-- Replaces the top element with its SHA-1 digest. -/
@[match_pattern]
def sha1 : UInt8 := 0xa7

/-- Replaces the top element with its SHA-256 digest. -/
@[match_pattern]
def sha256 : UInt8 := 0xa8

/-- Replaces the top element with its 20-byte hash. -/
@[match_pattern]
def hash160 : UInt8 := 0xa9

/-- Replaces the top element with its 32-byte hash. -/
@[match_pattern]
def hash256 : UInt8 := 0xaa

/-- Does nothing, as signatures sign the whole script. -/
@[match_pattern]
def codeSeparator : UInt8 := 0xab

/-- Checks a signature against a public key. -/
@[match_pattern]
def checkSig : UInt8 := 0xac

/-- Checks a signature and fails unless it holds. -/
@[match_pattern]
def checkSigVerify : UInt8 := 0xad

/-- Is known and refused. -/
@[match_pattern]
def checkMultiSig : UInt8 := 0xae

/-- Is known and refused. -/
@[match_pattern]
def checkMultiSigVerify : UInt8 := 0xaf

/-! ## Lock times and reserved codes -/

/-- Does nothing. -/
@[match_pattern]
def nop1 : UInt8 := 0xb0

/-- Fails unless the transaction is locked for long enough. -/
@[match_pattern]
def checkLockTime : UInt8 := 0xb1

/-- Fails unless the input has waited for long enough. -/
@[match_pattern]
def checkSequence : UInt8 := 0xb2

/-- Does nothing. -/
@[match_pattern]
def nop4 : UInt8 := 0xb3

/-- Does nothing. -/
@[match_pattern]
def nop5 : UInt8 := 0xb4

/-- Does nothing. -/
@[match_pattern]
def nop6 : UInt8 := 0xb5

/-- Does nothing. -/
@[match_pattern]
def nop7 : UInt8 := 0xb6

/-- Does nothing. -/
@[match_pattern]
def nop8 : UInt8 := 0xb7

/-- Does nothing. -/
@[match_pattern]
def nop9 : UInt8 := 0xb8

/-- Does nothing. -/
@[match_pattern]
def nop10 : UInt8 := 0xb9

/-! ## Names -/

/-- The names of the codes from 76 on. -/
def names : List String :=
  ["OP_PUSHDATA1", "OP_PUSHDATA2", "OP_PUSHDATA4", "OP_1NEGATE", "OP_RESERVED",
   "OP_1", "OP_2", "OP_3", "OP_4", "OP_5", "OP_6", "OP_7", "OP_8",
   "OP_9", "OP_10", "OP_11", "OP_12", "OP_13", "OP_14", "OP_15", "OP_16",
   "OP_NOP", "OP_VER", "OP_IF", "OP_NOTIF", "OP_VERIF", "OP_VERNOTIF", "OP_ELSE", "OP_ENDIF",
   "OP_VERIFY", "OP_RETURN", "OP_TOALTSTACK", "OP_FROMALTSTACK",
   "OP_2DROP", "OP_2DUP", "OP_3DUP", "OP_2OVER", "OP_2ROT", "OP_2SWAP",
   "OP_IFDUP", "OP_DEPTH", "OP_DROP", "OP_DUP", "OP_NIP", "OP_OVER", "OP_PICK", "OP_ROLL",
   "OP_ROT", "OP_SWAP", "OP_TUCK",
   "OP_CAT", "OP_SUBSTR", "OP_LEFT", "OP_RIGHT", "OP_SIZE",
   "OP_INVERT", "OP_AND", "OP_OR", "OP_XOR", "OP_EQUAL", "OP_EQUALVERIFY",
   "OP_RESERVED1", "OP_RESERVED2",
   "OP_1ADD", "OP_1SUB", "OP_2MUL", "OP_2DIV", "OP_NEGATE", "OP_ABS", "OP_NOT", "OP_0NOTEQUAL",
   "OP_ADD", "OP_SUB", "OP_MUL", "OP_DIV", "OP_MOD", "OP_LSHIFT", "OP_RSHIFT",
   "OP_BOOLAND", "OP_BOOLOR", "OP_NUMEQUAL", "OP_NUMEQUALVERIFY", "OP_NUMNOTEQUAL",
   "OP_LESSTHAN", "OP_GREATERTHAN", "OP_LESSTHANOREQUAL", "OP_GREATERTHANOREQUAL",
   "OP_MIN", "OP_MAX", "OP_WITHIN",
   "OP_RIPEMD160", "OP_SHA1", "OP_SHA256", "OP_HASH160", "OP_HASH256", "OP_CODESEPARATOR",
   "OP_CHECKSIG", "OP_CHECKSIGVERIFY", "OP_CHECKMULTISIG", "OP_CHECKMULTISIGVERIFY",
   "OP_NOP1", "OP_CHECKLOCKTIMEVERIFY", "OP_CHECKSEQUENCEVERIFY",
   "OP_NOP4", "OP_NOP5", "OP_NOP6", "OP_NOP7", "OP_NOP8", "OP_NOP9", "OP_NOP10"]

/-- The name of a code, where it has one. -/
def name? (code : UInt8) : Option String :=
  if code = 0 then some "OP_0"
  else if code < 76 then none
  else names[code.toNat - 76]?

/-- The name of a code. -/
def name (code : UInt8) : String := (name? code).getD "OP_UNKNOWN"

end Bitcoin.Opcode
