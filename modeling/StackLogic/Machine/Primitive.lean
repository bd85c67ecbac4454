/-!
# Primitive words

The fixed words of the stack language, with their names and the number of operands each of them
needs.
-/

namespace StackLogic.Machine

/-- The primitive words. -/
inductive Primitive where
  -- moving operands
  | dup | drop | swap | overWord | rot | nip | tuck | twoDup | twoDrop | twoSwap | clear
  -- arithmetic
  | add | sub | mul | div | mod | negate | abs | min | max
  -- comparison
  | eq | lt | gt | le | ge | ne | zeroEq | zeroLt | zeroGt
  -- bits and truth values
  | and | or | xor | invert | not
  -- output
  | print | printStack | cr | emit | spaces | words
  -- functions
  | sin | cos | tan | sqrt | log | exp
  -- the stack itself
  | depth | pick | roll
  -- constants
  | trueWord | falseWord | pi | e
  -- words that are known but do nothing
  | variableWord | constantWord | store | fetch
  deriving DecidableEq, Repr

namespace Primitive

/-- All primitive words. -/
def all : List Primitive :=
  [dup, drop, swap, overWord, rot, nip, tuck, twoDup, twoDrop, twoSwap, clear,
    add, sub, mul, div, mod, negate, abs, min, max,
    eq, lt, gt, le, ge, ne, zeroEq, zeroLt, zeroGt,
    and, or, xor, invert, not,
    print, printStack, cr, emit, spaces, words,
    sin, cos, tan, sqrt, log, exp,
    depth, pick, roll,
    trueWord, falseWord, pi, e,
    variableWord, constantWord, store, fetch]

/-- The name of a word, in upper case. -/
def name : Primitive → String
  | dup => "DUP"
  | drop => "DROP"
  | swap => "SWAP"
  | overWord => "OVER"
  | rot => "ROT"
  | nip => "NIP"
  | tuck => "TUCK"
  | twoDup => "2DUP"
  | twoDrop => "2DROP"
  | twoSwap => "2SWAP"
  | clear => "CLEAR"
  | add => "+"
  | sub => "-"
  | mul => "*"
  | div => "/"
  | mod => "MOD"
  | negate => "NEGATE"
  | abs => "ABS"
  | min => "MIN"
  | max => "MAX"
  | eq => "="
  | lt => "<"
  | gt => ">"
  | le => "<="
  | ge => ">="
  | ne => "<>"
  | zeroEq => "0="
  | zeroLt => "0<"
  | zeroGt => "0>"
  | and => "AND"
  | or => "OR"
  | xor => "XOR"
  | invert => "INVERT"
  | not => "NOT"
  | print => "."
  | printStack => ".S"
  | cr => "CR"
  | emit => "EMIT"
  | spaces => "SPACES"
  | words => "WORDS"
  | sin => "SIN"
  | cos => "COS"
  | tan => "TAN"
  | sqrt => "SQRT"
  | log => "LOG"
  | exp => "EXP"
  | depth => "DEPTH"
  | pick => "PICK"
  | roll => "ROLL"
  | trueWord => "TRUE"
  | falseWord => "FALSE"
  | pi => "PI"
  | e => "E"
  | variableWord => "VARIABLE"
  | constantWord => "CONSTANT"
  | store => "!"
  | fetch => "@"

/-- How many operands a word needs at least. -/
def arity : Primitive → Nat
  | clear | printStack | cr | words | depth | trueWord | falseWord | pi | e
  | variableWord | constantWord | store | fetch => 0
  | dup | drop | negate | abs | zeroEq | zeroLt | zeroGt | invert | not
  | print | emit | spaces | sin | cos | tan | sqrt | log | exp | pick | roll => 1
  | swap | overWord | nip | tuck | twoDrop | twoDup | add | sub | mul | div | mod | min | max
  | eq | lt | gt | le | ge | ne | and | or | xor => 2
  | rot => 3
  | twoSwap => 4

/-- The word with this name, in the letter case of `name`. -/
def ofName? (s : String) : Option Primitive :=
  all.find? (·.name == s)

/-- A word is found under its name. -/
theorem ofName?_name (p : Primitive) : ofName? p.name = some p := by
  cases p <;> rfl

end Primitive

end StackLogic.Machine
