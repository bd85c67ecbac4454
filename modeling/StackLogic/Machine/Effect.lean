import StackLogic.Machine.Arithmetic
import StackLogic.Machine.Dictionary

/-!
# What primitive words do

A primitive word turns the operand stack into another one and may emit a line. A word that meets a
fault has no effect: the result is then the fault alone, and the stack stays as it was.
-/

namespace StackLogic.Machine

/-- What a primitive word leaves behind. -/
structure Effect where
  /-- The new operand stack. -/
  stack : Operands
  /-- The line it emits, if any. -/
  emitted : Option String := none
  deriving DecidableEq

namespace Effect

/-- Only the stack changes. -/
def silent (s : Operands) : Except Fault Effect := .ok { stack := s }

/-- The stack changes and a line is emitted. -/
def saying (s : Operands) (text : String) : Except Fault Effect :=
  .ok { stack := s, emitted := some text }

/-- Replace the top by the value of `f`. -/
def unary (word : String) (f : Value → Except Fault Value) : Operands → Except Fault Effect
  | a :: rest => (f a).bind fun v => silent (v :: rest)
  | _ => .error (.underflow word)

/-- Replace the two uppermost cells by the value of `f`; the top is the right operand. -/
def binary (word : String) (f : Value → Value → Except Fault Value) :
    Operands → Except Fault Effect
  | b :: a :: rest => (f a b).bind fun v => silent (v :: rest)
  | _ => .error (.underflow word)

end Effect

/-- The greatest count that `SPACES` accepts. -/
def maxSpaces : Int64 := 4096

/-- One degree in radians. -/
def radiansPerDegree : Float := 3.141592653589793 / 180.0

/-- The character with this code, if there is one. -/
def charOfCode? (code : Int64) : Option Char :=
  let n := code.toInt
  if h : 0 ≤ n ∧ n.toNat.isValidChar then some (Char.ofNatAux n.toNat h.2) else none

/-- The index on top of the stack, if it points to one of the cells below it. -/
def stackIndex (word : String) (top : Value) (below : Operands) : Except Fault Nat := do
  let n ← top.expectInt word
  if n < 0 ∨ below.length ≤ n.toInt.toNat then throw (.badIndex word n below.length)
  return n.toInt.toNat

open Effect

/-- The effect of a primitive word on a stack that holds at least the operands it needs. -/
def Primitive.apply (p : Primitive) (d : Dictionary) (s : Operands) : Except Fault Effect :=
  let word := p.name
  let underflow : Except Fault Effect := .error (.underflow word)
  match p with
  | .dup => match s with
    | a :: r => silent (a :: a :: r)
    | _ => underflow
  | .drop => match s with
    | _ :: r => silent r
    | _ => underflow
  | .swap => match s with
    | b :: a :: r => silent (a :: b :: r)
    | _ => underflow
  | .overWord => match s with
    | b :: a :: r => silent (a :: b :: a :: r)
    | _ => underflow
  | .rot => match s with
    | c :: b :: a :: r => silent (a :: c :: b :: r)
    | _ => underflow
  | .nip => match s with
    | b :: _ :: r => silent (b :: r)
    | _ => underflow
  | .tuck => match s with
    | b :: a :: r => silent (b :: a :: b :: r)
    | _ => underflow
  | .twoDup => match s with
    | b :: a :: r => silent (b :: a :: b :: a :: r)
    | _ => underflow
  | .twoDrop => match s with
    | _ :: _ :: r => silent r
    | _ => underflow
  | .twoSwap => match s with
    | d :: c :: b :: a :: r => silent (b :: a :: d :: c :: r)
    | _ => underflow
  | .clear => silent []
  | .add => binary word (Value.add word) s
  | .sub => binary word (Value.numeric word (· - ·) (· - ·)) s
  | .mul => binary word (Value.numeric word (· * ·) (· * ·)) s
  | .div => binary word (Value.divide word) s
  | .mod => binary word (Value.modulo word) s
  | .negate => unary word (Value.negate word) s
  | .abs => unary word (Value.magnitude word) s
  | .min => binary word (Value.unlessOrder word .gt) s
  | .max => binary word (Value.unlessOrder word .lt) s
  | .eq => binary word (fun a b => (Value.equals word a b).map Value.ofBool) s
  | .ne => binary word (fun a b => (Value.equals word a b).map fun same => .ofBool !same) s
  | .lt => binary word (Value.testOrder word (· == .lt)) s
  | .gt => binary word (Value.testOrder word (· == .gt)) s
  | .le => binary word (Value.testOrder word (· != .gt)) s
  | .ge => binary word (Value.testOrder word (· != .lt)) s
  | .zeroEq => unary word (fun a => (a.expectNumber word).map fun x => .ofBool (x == 0.0)) s
  | .zeroLt => unary word (fun a => (a.expectNumber word).map fun x => .ofBool (x < 0.0)) s
  | .zeroGt => unary word (fun a => (a.expectNumber word).map fun x => .ofBool (0.0 < x)) s
  | .and => binary word (Value.bitwise word (· &&& ·)) s
  | .or => binary word (Value.bitwise word (· ||| ·)) s
  | .xor => binary word (Value.bitwise word (· ^^^ ·)) s
  | .invert => unary word (fun a => (a.expectInt word).map fun n => .int (~~~n)) s
  | .not => unary word (fun a => .ok (.ofBool !a.isTruthy)) s
  | .print => match s with
    | a :: r => saying r a.display
    | _ => underflow
  | .printStack =>
    saying s (" ".intercalate
      (("<" ++ toString s.length ++ ">") :: (Operands.fromBottom s).map Value.quoted))
  | .cr => saying s ""
  | .emit => match s with
    | a :: r => do
      let code ← a.expectInt word
      match charOfCode? code with
      | some c => saying r c.toString
      | none => .error (.domain word (.characterCode code))
    | _ => underflow
  | .spaces => match s with
    | a :: r => do
      let count ← a.expectInt word
      if maxSpaces < count then .error (.domain word (.tooManySpaces count maxSpaces))
      else saying r (String.ofList (List.replicate count.toInt.toNat ' '))
    | _ => underflow
  | .words => saying s (" ".intercalate d.names)
  | .sin => unary word (Value.function word fun x => .ok (x * radiansPerDegree).sin) s
  | .cos => unary word (Value.function word fun x => .ok (x * radiansPerDegree).cos) s
  | .tan => unary word (Value.function word fun x => .ok (x * radiansPerDegree).tan) s
  | .sqrt =>
    unary word (Value.function word fun x => if x < 0.0 then .error .negativeRoot else .ok x.sqrt) s
  | .log =>
    unary word
      (Value.function word fun x => if x <= 0.0 then .error .nonPositiveLogarithm else .ok x.log) s
  | .exp => unary word (Value.function word fun x => .ok x.exp) s
  | .depth => silent (.int (Int64.ofNat s.length) :: s)
  | .pick => match s with
    | top :: below => do
      let n ← stackIndex word top below
      let item ← Operands.peek below n word
      silent (item :: below)
    | _ => underflow
  | .roll => match s with
    | top :: below => do
      let n ← stackIndex word top below
      let (item, rest) ← Operands.remove below n word
      silent (item :: rest)
    | _ => underflow
  | .trueWord => silent (.ofBool true :: s)
  | .falseWord => silent (.ofBool false :: s)
  | .pi => silent (.float 3.141592653589793 :: s)
  | .e => silent (.float 2.718281828459045 :: s)
  | .variableWord | .constantWord | .store | .fetch => saying s (word ++ " is not implemented")

/-- Run a primitive word. The operands it needs are counted before it looks at any of them. -/
def Primitive.run (p : Primitive) (d : Dictionary) (s : Operands) : Except Fault Effect :=
  if s.length < p.arity then .error (.underflow p.name) else p.apply d s

end StackLogic.Machine
