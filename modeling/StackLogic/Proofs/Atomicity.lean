import StackLogic.Machine.Run
import Mathlib.Data.List.Basic

/-!
# Primitive words take effect as a whole or not at all

A primitive word that finds its operands counts out exactly those: it lacks operands only if there
are fewer than its arity (`Primitive.run_eq_underflow_iff`), and what lies below them stays where it
is (`Primitive.stack_of_run`).

`Primitive.run` gives a fault alone, without a stack. `Primitive.inPlace` says the same word as a
sequence of operations that change the stack one after the other, and that leave it as it is when one
of them meets a fault. The two agree (`Primitive.inPlace_eq_run`): a word changes the stack only after
the last operation that can fail.
-/

namespace StackLogic.Machine

variable {α β : Type} {p : Primitive} {d : Dictionary} {s : Operands} {word : String}

/-! ## Computing a value never lacks operands -/

/-- The computation does not ask for operands that are not there. -/
def Supplied (x : Except Fault α) : Prop := ∀ word, x ≠ .error (.underflow word)

theorem supplied_ok (a : α) : Supplied (.ok a : Except Fault α) := nofun

theorem supplied_pure (a : α) : Supplied (pure a : Except Fault α) := nofun

/-- A computation never lacks operands if its parts do not. -/
theorem Supplied.bind {x : Except Fault α} {f : α → Except Fault β} (hx : Supplied x)
    (hf : ∀ a, x = .ok a → Supplied (f a)) : Supplied (x >>= f) := by
  cases x with
  | error e =>
    intro word h
    cases h
    exact hx word rfl
  | ok a => exact hf a rfl

theorem Supplied.map {x : Except Fault α} (hx : Supplied x) (f : α → β) : Supplied (x.map f) := by
  cases x with
  | error e =>
    intro word h
    cases h
    exact hx word rfl
  | ok a => exact supplied_ok _

theorem supplied_expectNumber (word : String) (v : Value) : Supplied (v.expectNumber word) := by
  cases v <;> nofun

theorem supplied_expectInt (word : String) (v : Value) : Supplied (v.expectInt word) := by
  cases v <;> nofun

/-- Operators on numbers may get the wrong kinds, but not too few operands. -/
theorem supplied_numeric (word : String) (onInts : Int64 → Int64 → Int64)
    (onFloats : Float → Float → Float) (a b : Value) :
    Supplied (Value.numeric word onInts onFloats a b) := by
  unfold Value.numeric
  split
  · exact supplied_ok _
  · exact (supplied_expectNumber word a).bind fun _ _ =>
      (supplied_expectNumber word b).bind fun _ _ => supplied_pure _

theorem supplied_add (word : String) (a b : Value) : Supplied (Value.add word a b) := by
  unfold Value.add
  split
  · exact supplied_ok _
  · exact supplied_numeric word _ _ a b

theorem supplied_divide (word : String) (a b : Value) : Supplied (Value.divide word a b) := by
  refine (supplied_expectNumber word a).bind fun x _ => (supplied_expectNumber word b).bind fun y _ => ?_
  split
  · nofun
  · exact supplied_pure _

theorem supplied_modulo (word : String) (a b : Value) : Supplied (Value.modulo word a b) := by
  unfold Value.modulo
  split
  · split <;> nofun
  · refine (supplied_expectNumber word a).bind fun x _ =>
      (supplied_expectNumber word b).bind fun y _ => ?_
    split
    · nofun
    · exact supplied_pure _

theorem supplied_order (word : String) (a b : Value) : Supplied (Value.order word a b) := by
  unfold Value.order
  split
  · exact supplied_ok _
  · exact supplied_ok _
  · nofun
  · nofun
  · exact (supplied_expectNumber word _).bind fun _ _ =>
      (supplied_expectNumber word _).bind fun _ _ => supplied_pure _

theorem supplied_equals (word : String) (a b : Value) : Supplied (Value.equals word a b) := by
  unfold Value.equals
  split
  · exact supplied_ok _
  · exact supplied_ok _
  · nofun
  · nofun
  · exact (supplied_expectNumber word _).bind fun _ _ =>
      (supplied_expectNumber word _).bind fun _ _ => supplied_pure _

theorem supplied_testOrder (word : String) (test : Ordering → Bool) (a b : Value) :
    Supplied (Value.testOrder word test a b) :=
  (supplied_order word a b).bind fun _ _ => supplied_pure _

theorem supplied_unlessOrder (word : String) (o : Ordering) (a b : Value) :
    Supplied (Value.unlessOrder word o a b) :=
  (supplied_order word a b).bind fun _ _ => supplied_pure _

theorem supplied_bitwise (word : String) (f : Int64 → Int64 → Int64) (a b : Value) :
    Supplied (Value.bitwise word f a b) :=
  (supplied_expectInt word a).bind fun _ _ =>
    (supplied_expectInt word b).bind fun _ _ => supplied_pure _

theorem supplied_function (word : String) (f : Float → Except DomainCause Float) (a : Value) :
    Supplied (Value.function word f a) := by
  refine (supplied_expectNumber word a).bind fun x _ => ?_
  cases f x with
  | ok y => exact supplied_pure _
  | error cause => nofun

/-- An index may be bad, but it is there. -/
theorem supplied_stackIndex (word : String) (top : Value) (below : Operands) :
    Supplied (stackIndex word top below) := by
  refine (supplied_expectInt word top).bind fun n _ => ?_
  split
  · nofun
  · exact supplied_pure _

/-! ## Words that replace their operands by a value -/

/-- The word replaces its one operand, or its two operands, by a value that it computes from them. -/
inductive Primitive.Computes (p : Primitive) : Prop where
  | unary (f : Value → Except Fault Value) (harity : p.arity = 1) (hf : ∀ a, Supplied (f a))
      (happly : ∀ d s, p.apply d s = Effect.unary p.name f s)
  | binary (f : Value → Value → Except Fault Value) (harity : p.arity = 2)
      (hf : ∀ a b, Supplied (f a b)) (happly : ∀ d s, p.apply d s = Effect.binary p.name f s)

/-- Whether the word only computes a value. -/
def Primitive.isComputation : Primitive → Bool
  | .add | .sub | .mul | .div | .mod | .negate | .abs | .min | .max
  | .eq | .lt | .gt | .le | .ge | .ne | .zeroEq | .zeroLt | .zeroGt
  | .and | .or | .xor | .invert | .not
  | .sin | .cos | .tan | .sqrt | .log | .exp => true
  | _ => false

/-- Words that compute take their operands and give one value. -/
theorem Primitive.computes (h : p.isComputation = true) : p.Computes := by
  cases p with
  | add => exact .binary _ rfl (supplied_add _) fun _ _ => rfl
  | sub | mul => exact .binary _ rfl (supplied_numeric _ _ _) fun _ _ => rfl
  | div => exact .binary _ rfl (supplied_divide _) fun _ _ => rfl
  | mod => exact .binary _ rfl (supplied_modulo _) fun _ _ => rfl
  | negate | abs => exact .unary _ rfl (fun a => by cases a <;> nofun) fun _ _ => rfl
  | min | max => exact .binary _ rfl (supplied_unlessOrder _ _) fun _ _ => rfl
  | eq | ne => exact .binary _ rfl (fun a b => (supplied_equals _ a b).map _) fun _ _ => rfl
  | lt | gt | le | ge => exact .binary _ rfl (supplied_testOrder _ _) fun _ _ => rfl
  | zeroEq | zeroLt | zeroGt =>
    exact .unary _ rfl (fun a => (supplied_expectNumber _ a).map _) fun _ _ => rfl
  | and | or | xor => exact .binary _ rfl (supplied_bitwise _ _) fun _ _ => rfl
  | invert => exact .unary _ rfl (fun a => (supplied_expectInt _ a).map _) fun _ _ => rfl
  | not => exact .unary _ rfl (fun a => supplied_ok _) fun _ _ => rfl
  | sin | cos | tan | sqrt | log | exp => exact .unary _ rfl (supplied_function _ _) fun _ _ => rfl
  | _ => cases h

/-! ## What a word leaves in place -/

/-- How many of the uppermost cells a word may touch: its operands, and for `PICK` and `ROLL` the
index and the cells down to the one it points to. -/
def Primitive.reach (p : Primitive) (s : Operands) : Nat :=
  match p, s with
  | .pick, .int n :: _ => n.toInt.toNat + 2
  | .roll, .int n :: _ => n.toInt.toNat + 2
  | _, _ => p.arity

/-- If the computation succeeds, it leaves all cells below the `n` uppermost ones in place. -/
def LeavesBelow (n : Nat) (s : Operands) (x : Except Fault Effect) : Prop :=
  ∀ e, x = .ok e → ∃ results, e.stack = results ++ s.drop n

theorem leavesBelow_silent {n : Nat} (results : Operands) :
    LeavesBelow n s (Effect.silent (results ++ s.drop n)) := by
  intro e h
  cases h
  exact ⟨results, rfl⟩

theorem leavesBelow_saying {n : Nat} (results : Operands) (text : String) :
    LeavesBelow n s (Effect.saying (results ++ s.drop n) text) := by
  intro e h
  cases h
  exact ⟨results, rfl⟩

/-- What follows a check that does not touch the stack decides what is left in place. -/
theorem LeavesBelow.bind {n : Nat} {x : Except Fault α} {f : α → Except Fault Effect}
    (hf : ∀ a, x = .ok a → LeavesBelow n s (f a)) : LeavesBelow n s (x >>= f) := by
  cases x with
  | error e => nofun
  | ok a => exact hf a rfl

/-- An accepted index points to a cell. -/
theorem lt_length_of_stackIndex {top : Value} {below : Operands} {n : Nat}
    (h : stackIndex word top below = .ok n) :
    ∃ i : Int64, top = .int i ∧ n = i.toInt.toNat ∧ n < below.length := by
  cases top with
  | float x => cases h
  | str t => cases h
  | int i =>
    simp only [stackIndex, Value.expectInt, Value.int?] at h
    change (if i < 0 ∨ below.length ≤ i.toInt.toNat then _ else _) = _ at h
    split at h
    next => cases h
    next hvalid =>
      cases h
      exact ⟨i, rfl, rfl, by omega⟩

theorem Primitive.reach_of_isComputation (h : p.isComputation = true) (s : Operands) :
    p.reach s = p.arity := by
  cases p <;> first | rfl | cases h

/-- A computing word with enough operands does not lack any and leaves the others in place. -/
theorem Primitive.Computes.apply (h : p.Computes) (harity : p.arity ≤ s.length) :
    Supplied (p.apply d s) ∧ LeavesBelow p.arity s (p.apply d s) := by
  cases h with
  | unary f hone hf happly =>
    rw [hone] at harity ⊢
    obtain ⟨a, rest, rfl⟩ := List.exists_cons_of_length_pos harity
    rw [happly]
    exact ⟨(hf a).bind fun _ _ => supplied_ok _, .bind fun v _ => leavesBelow_silent [v]⟩
  | binary f htwo hf happly =>
    rw [htwo] at harity ⊢
    match s, harity with
    | b :: a :: rest, _ =>
      rw [happly]
      exact ⟨(hf a b).bind fun _ _ => supplied_ok _, .bind fun v _ => leavesBelow_silent [v]⟩

theorem Operands.peek_of_lt {n : Nat} (h : n < s.length) : s.peek n word = .ok s[n] := by
  simp only [Operands.peek, List.getElem?_eq_getElem h]

theorem Operands.remove_of_lt {n : Nat} (h : n < s.length) :
    s.remove n word = .ok (s[n], s.eraseIdx n) := by
  simp only [Operands.remove, List.getElem?_eq_getElem h]

/-- A word that finds its operands does not lack any, and leaves in place what it does not reach. -/
theorem Primitive.apply_of_arity_le (p : Primitive) (d : Dictionary) (h : p.arity ≤ s.length) :
    Supplied (p.apply d s) ∧ (p ≠ .clear → LeavesBelow (p.reach s) s (p.apply d s)) := by
  by_cases hcomputes : p.isComputation = true
  · rw [p.reach_of_isComputation hcomputes]
    obtain ⟨hsupplied, hleaves⟩ := (p.computes hcomputes).apply (d := d) h
    exact ⟨hsupplied, fun _ => hleaves⟩
  -- the other words, each on the cells it needs
  match p, s, h with
  | .clear, _, _ => exact ⟨supplied_ok _, fun hne => absurd rfl hne⟩
  | .printStack, _, _ | .cr, _, _ | .words, _, _ =>
    exact ⟨supplied_ok _, fun _ => leavesBelow_saying [] _⟩
  | .variableWord, _, _ | .constantWord, _, _ | .store, _, _ | .fetch, _, _ =>
    exact ⟨supplied_ok _, fun _ => leavesBelow_saying [] _⟩
  | .depth, _, _ | .trueWord, _, _ | .falseWord, _, _ | .pi, _, _ | .e, _, _ =>
    exact ⟨supplied_ok _, fun _ => leavesBelow_silent [_]⟩
  | .dup, _ :: _, _ => exact ⟨supplied_ok _, fun _ => leavesBelow_silent [_, _]⟩
  | .drop, _ :: _, _ => exact ⟨supplied_ok _, fun _ => leavesBelow_silent []⟩
  | .swap, _ :: _ :: _, _ => exact ⟨supplied_ok _, fun _ => leavesBelow_silent [_, _]⟩
  | .overWord, _ :: _ :: _, _ | .tuck, _ :: _ :: _, _ =>
    exact ⟨supplied_ok _, fun _ => leavesBelow_silent [_, _, _]⟩
  | .rot, _ :: _ :: _ :: _, _ => exact ⟨supplied_ok _, fun _ => leavesBelow_silent [_, _, _]⟩
  | .nip, _ :: _ :: _, _ => exact ⟨supplied_ok _, fun _ => leavesBelow_silent [_]⟩
  | .twoDup, _ :: _ :: _, _ => exact ⟨supplied_ok _, fun _ => leavesBelow_silent [_, _, _, _]⟩
  | .twoDrop, _ :: _ :: _, _ => exact ⟨supplied_ok _, fun _ => leavesBelow_silent []⟩
  | .twoSwap, _ :: _ :: _ :: _ :: _, _ =>
    exact ⟨supplied_ok _, fun _ => leavesBelow_silent [_, _, _, _]⟩
  | .print, _ :: _, _ => exact ⟨supplied_ok _, fun _ => leavesBelow_saying [] _⟩
  | .emit, a :: r, _ =>
    refine ⟨(supplied_expectInt _ a).bind fun code _ => ?_, fun _ => .bind fun code _ => ?_⟩
    · cases charOfCode? code <;> nofun
    · cases charOfCode? code with
      | none => nofun
      | some c => exact leavesBelow_saying [] _
  | .spaces, a :: r, _ =>
    refine ⟨(supplied_expectInt _ a).bind fun count _ => ?_, fun _ => .bind fun count _ => ?_⟩
    · split <;> nofun
    · split
      · nofun
      · exact leavesBelow_saying [] _
  | .pick, top :: below, _ =>
    refine ⟨(supplied_stackIndex _ top below).bind fun n hn => ?_, fun _ => .bind fun n hn => ?_⟩
    · obtain ⟨i, -, -, hlt⟩ := lt_length_of_stackIndex hn
      rw [Operands.peek_of_lt hlt]
      exact supplied_ok _
    · obtain ⟨i, rfl, rfl, hlt⟩ := lt_length_of_stackIndex hn
      rw [Operands.peek_of_lt hlt]
      rintro e ⟨⟩
      refine ⟨below[i.toInt.toNat] :: below.take (i.toInt.toNat + 1), ?_⟩
      exact congrArg _ (List.take_append_drop _ below).symm
  | .roll, top :: below, _ =>
    refine ⟨(supplied_stackIndex _ top below).bind fun n hn => ?_, fun _ => .bind fun n hn => ?_⟩
    · obtain ⟨i, -, -, hlt⟩ := lt_length_of_stackIndex hn
      rw [Operands.remove_of_lt hlt]
      exact supplied_ok _
    · obtain ⟨i, rfl, rfl, hlt⟩ := lt_length_of_stackIndex hn
      rw [Operands.remove_of_lt hlt]
      rintro e ⟨⟩
      refine ⟨below[i.toInt.toNat] :: below.take i.toInt.toNat, ?_⟩
      exact congrArg _ (List.eraseIdx_eq_take_drop_succ below _)

/-- A word lacks operands exactly if there are fewer than it needs. -/
theorem Primitive.run_eq_underflow_iff :
    (∃ word, p.run d s = .error (.underflow word)) ↔ s.length < p.arity := by
  unfold Primitive.run
  constructor
  · rintro ⟨word, h⟩
    by_contra harity
    rw [if_neg harity] at h
    exact (p.apply_of_arity_le d (Nat.not_lt.1 harity)).1 word h
  · intro harity
    exact ⟨p.name, if_pos harity⟩

/-- A word that succeeds leaves in place what is below its reach. -/
theorem Primitive.stack_of_run {e : Effect} (h : p.run d s = .ok e) (hclear : p ≠ .clear) :
    ∃ results, e.stack = results ++ s.drop (p.reach s) := by
  unfold Primitive.run at h
  split at h
  next => cases h
  next harity => exact (p.apply_of_arity_le d (Nat.not_lt.1 harity)).2 hclear e h

/-- A word that succeeds had as many operands as it reaches for. -/
theorem Primitive.reach_le_of_run {e : Effect} (h : p.run d s = .ok e) : p.reach s ≤ s.length := by
  unfold Primitive.run at h
  split at h
  next => cases h
  next harity =>
    unfold Primitive.reach
    split
    next i below =>
      cases hn : stackIndex Primitive.pick.name (.int i) below with
      | error f =>
        simp only [Primitive.apply, hn] at h
        cases h
      | ok n =>
        obtain ⟨_, ⟨⟩, rfl, hlt⟩ := lt_length_of_stackIndex hn
        exact Nat.succ_le_succ hlt
    next i below =>
      cases hn : stackIndex Primitive.roll.name (.int i) below with
      | error f =>
        simp only [Primitive.apply, hn] at h
        cases h
      | ok n =>
        obtain ⟨_, ⟨⟩, rfl, hlt⟩ := lt_length_of_stackIndex hn
        exact Nat.succ_le_succ hlt
    next => exact Nat.not_lt.1 harity

/-! ## The same words as operations in place -/

/-- Operations on the operand stack, one after the other. What they have done before a fault is
kept. -/
def InPlace (α : Type) : Type := Effect → Except Fault α × Effect

namespace InPlace

instance : Monad InPlace where
  pure a := fun e => (.ok a, e)
  bind x f := fun e =>
    match x e with
    | (.ok a, e') => f a e'
    | (.error fault, e') => (.error fault, e')

theorem bind_of_ok {x : InPlace α} {f : α → InPlace β} {e e' : Effect} {a : α}
    (h : x e = (.ok a, e')) : (x >>= f) e = f a e' := by
  show (match x e with | (.ok a, e') => f a e' | (.error fault, e') => (.error fault, e')) = _
  rw [h]

theorem bind_of_error {x : InPlace α} {f : α → InPlace β} {e e' : Effect} {fault : Fault}
    (h : x e = (.error fault, e')) : (x >>= f) e = (.error fault, e') := by
  show (match x e with | (.ok a, e') => f a e' | (.error fault, e') => (.error fault, e')) = _
  rw [h]

/-- A value that was computed beside the stack. -/
def ofExcept (x : Except Fault α) : InPlace α := fun e => (x, e)

/-- All cells, the top first. -/
def cells : InPlace Operands := fun e => (.ok e.stack, e)

def require (n : Nat) (word : String) : InPlace Unit := fun e => (e.stack.require n word, e)

def peek (n : Nat) (word : String) : InPlace Value := fun e => (e.stack.peek n word, e)

def pop (word : String) : InPlace Value := fun e =>
  match e.stack.pop word with
  | .ok (v, rest) => (.ok v, { e with stack := rest })
  | .error fault => (.error fault, e)

def remove (n : Nat) (word : String) : InPlace Value := fun e =>
  match e.stack.remove n word with
  | .ok (v, rest) => (.ok v, { e with stack := rest })
  | .error fault => (.error fault, e)

def discard (n : Nat) : InPlace Unit := fun e => (.ok (), { e with stack := e.stack.discard n })

def push (v : Value) : InPlace Unit := fun e => (.ok (), { e with stack := v :: e.stack })

def say (text : String) : InPlace Unit := fun e => (.ok (), { e with emitted := some text })

/-- Push the cells of another stack, its top last. -/
def pushAll (vs : Operands) : InPlace Unit := fun e => (.ok (), { e with stack := vs ++ e.stack })

/-- The index of `PICK` and `ROLL`. It is looked at and stays on the stack. -/
def index (word : String) : InPlace Nat := do
  let top ← peek 0 word
  let all ← cells
  ofExcept (stackIndex word top all.tail)

/-- Compute a value from the `n` uppermost cells while they stay on the stack, and then put it in
their place. -/
def replace (n : Nat) (f : Operands → Except Fault Effect) : InPlace Unit := do
  let all ← cells
  let computed ← ofExcept (f (all.take n))
  discard n
  pushAll computed.stack

end InPlace

open InPlace in
/-- What a word does on a stack that holds its operands, operation by operation. -/
def Primitive.operations (p : Primitive) (d : Dictionary) : InPlace Unit :=
  let word := p.name
  match p with
  | .dup => do
    let a ← peek 0 word
    push a
  | .drop => do
    let _ ← pop word
  | .swap => do
    let b ← pop word
    let a ← pop word
    push b
    push a
  | .overWord => do
    let a ← peek 1 word
    push a
  | .rot => do
    let a ← remove 2 word
    push a
  | .nip => do
    let _ ← remove 1 word
  | .tuck => do
    let b ← pop word
    let a ← pop word
    push b
    push a
    push b
  | .twoDup => do
    let a ← peek 1 word
    let b ← peek 0 word
    push a
    push b
  | .twoDrop => discard 2
  | .twoSwap => do
    let a ← remove 3 word
    let b ← remove 2 word
    push a
    push b
  | .clear => do
    let all ← cells
    discard all.length
  | .print => do
    let v ← pop word
    say v.display
  | .printStack => do
    let all ← cells
    say (" ".intercalate
      (("<" ++ toString all.length ++ ">") :: (Operands.fromBottom all).map Value.quoted))
  | .cr => say ""
  | .emit => do
    let top ← peek 0 word
    let code ← ofExcept (top.expectInt word)
    let c ← ofExcept
      (match charOfCode? code with
      | some c => .ok c
      | none => .error (.domain word (.characterCode code)))
    let _ ← pop word
    say c.toString
  | .spaces => do
    let top ← peek 0 word
    let count ← ofExcept (top.expectInt word)
    ofExcept (if maxSpaces < count then .error (.domain word (.tooManySpaces count maxSpaces))
      else .ok ())
    let _ ← pop word
    say (String.ofList (List.replicate count.toInt.toNat ' '))
  | .words => say (" ".intercalate d.names)
  | .depth => do
    let all ← cells
    push (.int (Int64.ofNat all.length))
  | .pick => do
    let n ← index word
    let _ ← pop word
    let item ← peek n word
    push item
  | .roll => do
    let n ← index word
    let _ ← pop word
    let item ← remove n word
    push item
  | .trueWord => push (.ofBool true)
  | .falseWord => push (.ofBool false)
  | .pi => push (.float 3.141592653589793)
  | .e => push (.float 2.718281828459045)
  | .variableWord | .constantWord | .store | .fetch => say (word ++ " is not implemented")
  | _ => replace p.arity (p.apply d)

/-- Run a word in place: count its operands, then do its operations. -/
def Primitive.inPlace (p : Primitive) (d : Dictionary) : InPlace Unit := do
  InPlace.require p.arity p.name
  p.operations d

/-- What there is after a word that had this effect, or none. -/
def settle (s : Operands) : Except Fault Effect → Except Fault Unit × Effect
  | .ok e => (.ok (), e)
  | .error f => (.error f, { stack := s })

/-- A check on values before operations in place is one before the effect. -/
theorem settle_bind {x : Except Fault α} {f : α → InPlace Unit} {g : α → Except Fault Effect}
    (h : ∀ a, x = .ok a → f a { stack := s } = settle s (g a)) :
    (InPlace.ofExcept x >>= f) { stack := s } = settle s (x >>= g) := by
  cases x with
  | ok a => exact h a rfl
  | error fault => rfl

theorem Primitive.operations_of_isComputation (h : p.isComputation = true) (d : Dictionary) :
    p.operations d = InPlace.replace p.arity (p.apply d) := by
  cases p <;> first | rfl | cases h

/-- Replacing operands drops them and puts the results in their place. -/
theorem replace_of_ok {n : Nat} {f : Operands → Except Fault Effect} {e : Effect}
    (h : f (s.take n) = .ok e) :
    InPlace.replace n f { stack := s } = (.ok (), { stack := e.stack ++ s.drop n }) := by
  have hcomputed : InPlace.ofExcept (f (s.take n)) { stack := s } = (.ok e, { stack := s }) :=
    congrArg (·, _) h
  exact InPlace.bind_of_ok hcomputed

/-- A fault leaves the operands where they are. -/
theorem replace_of_error {n : Nat} {f : Operands → Except Fault Effect} {fault : Fault}
    (h : f (s.take n) = .error fault) :
    InPlace.replace n f { stack := s } = (.error fault, { stack := s }) := by
  have hcomputed : InPlace.ofExcept (f (s.take n)) { stack := s } =
      (.error fault, { stack := s }) := congrArg (·, _) h
  exact (InPlace.bind_of_ok rfl).trans (InPlace.bind_of_error hcomputed)

/-- A computing word is the replacement of its operands. -/
theorem Primitive.Computes.replace (h : p.Computes) (harity : p.arity ≤ s.length) :
    InPlace.replace p.arity (p.apply d) { stack := s } = settle s (p.apply d s) := by
  cases h with
  | unary f hone hf happly =>
    rw [hone] at harity ⊢
    obtain ⟨a, rest, rfl⟩ := List.exists_cons_of_length_pos harity
    have hoperands : p.apply d [a] = (f a).bind fun v => Effect.silent [v] := happly d [a]
    have hall : p.apply d (a :: rest) = (f a).bind fun v => Effect.silent (v :: rest) :=
      happly d (a :: rest)
    cases hvalue : f a with
    | ok v =>
      rw [hvalue] at hoperands hall
      rw [replace_of_ok hoperands, hall]
      rfl
    | error fault =>
      rw [hvalue] at hoperands hall
      rw [replace_of_error hoperands, hall]
      rfl
  | binary f htwo hf happly =>
    rw [htwo] at harity ⊢
    match s, harity with
    | b :: a :: rest, _ =>
      have hoperands : p.apply d [b, a] = (f a b).bind fun v => Effect.silent [v] :=
        happly d [b, a]
      have hall : p.apply d (b :: a :: rest) = (f a b).bind fun v => Effect.silent (v :: rest) :=
        happly d (b :: a :: rest)
      cases hvalue : f a b with
      | ok v =>
        rw [hvalue] at hoperands hall
        rw [replace_of_ok hoperands, hall]
        rfl
      | error fault =>
        rw [hvalue] at hoperands hall
        rw [replace_of_error hoperands, hall]
        rfl

/-- Done operation by operation, a word has its whole effect or changes nothing. -/
theorem Primitive.operations_eq_apply (p : Primitive) (d : Dictionary) (h : p.arity ≤ s.length) :
    p.operations d { stack := s } = settle s (p.apply d s) := by
  by_cases hcomputes : p.isComputation = true
  · rw [p.operations_of_isComputation hcomputes]
    exact (p.computes hcomputes).replace h
  match p, s, h with
  | .clear, s, _ =>
    show (.ok (), { stack := s.drop s.length }) = settle s (Effect.silent [])
    rw [List.drop_length]
    rfl
  | .printStack, _, _ | .cr, _, _ | .words, _, _ => rfl
  | .variableWord, _, _ | .constantWord, _, _ | .store, _, _ | .fetch, _, _ => rfl
  | .depth, _, _ | .trueWord, _, _ | .falseWord, _, _ | .pi, _, _ | .e, _, _ => rfl
  | .dup, _ :: _, _ | .drop, _ :: _, _ | .print, _ :: _, _ => rfl
  | .swap, _ :: _ :: _, _ | .overWord, _ :: _ :: _, _ | .tuck, _ :: _ :: _, _ => rfl
  | .nip, _ :: _ :: _, _ | .twoDup, _ :: _ :: _, _ | .twoDrop, _ :: _ :: _, _ => rfl
  | .rot, _ :: _ :: _ :: _, _ | .twoSwap, _ :: _ :: _ :: _ :: _, _ => rfl
  | .emit, a :: r, _ =>
    refine settle_bind fun code _ => ?_
    cases charOfCode? code <;> rfl
  | .spaces, a :: r, _ =>
    refine settle_bind fun count _ => ?_
    by_cases hcount : maxSpaces < count
    · rw [if_pos hcount, if_pos hcount]
      rfl
    · rw [if_neg hcount, if_neg hcount]
      rfl
  | .pick, top :: below, _ =>
    refine settle_bind fun n hn => ?_
    obtain ⟨i, -, -, hlt⟩ := @lt_length_of_stackIndex _ _ below _ hn
    have hpeek : InPlace.peek n Primitive.pick.name { stack := below } =
        (.ok below[n], { stack := below }) :=
      congrArg (·, _) (Operands.peek_of_lt hlt)
    refine (InPlace.bind_of_ok hpeek).trans ?_
    rw [Operands.peek_of_lt hlt]
    rfl
  | .roll, top :: below, _ =>
    refine settle_bind fun n hn => ?_
    obtain ⟨i, -, -, hlt⟩ := @lt_length_of_stackIndex _ _ below _ hn
    have hremove : InPlace.remove n Primitive.roll.name { stack := below } =
        (.ok below[n], { stack := below.eraseIdx n }) := by
      simp only [InPlace.remove, Operands.remove_of_lt hlt]
    refine (InPlace.bind_of_ok hremove).trans ?_
    rw [Operands.remove_of_lt hlt]
    rfl

/-- A word that is run in place has its whole effect or changes nothing. -/
theorem Primitive.inPlace_eq_run (p : Primitive) (d : Dictionary) (s : Operands) :
    p.inPlace d { stack := s } = settle s (p.run d s) := by
  have hrequire : InPlace.require p.arity p.name { stack := s } =
      (s.require p.arity p.name, { stack := s }) := rfl
  unfold Primitive.run
  by_cases harity : s.length < p.arity
  · rw [Operands.require, if_pos harity] at hrequire
    rw [if_pos harity]
    exact InPlace.bind_of_error hrequire
  · rw [Operands.require, if_neg harity] at hrequire
    rw [if_neg harity]
    exact (InPlace.bind_of_ok hrequire).trans (p.operations_eq_apply d (Nat.not_lt.1 harity))

/-! ## Words on the machine -/

/-- A word that succeeds changes the stack and may emit a line. -/
theorem primitiveStep_of_ok {m : Machine} {e : Effect} (h : p.run m.dictionary m.stack = .ok e) :
    ∃ output, m.primitiveStep p = .next { m with stack := e.stack, output } := by
  unfold primitiveStep
  rw [h]
  exact ⟨_, rfl⟩

/-- A word that faults leaves the machine as it is. -/
theorem primitiveStep_of_error {m : Machine} {f : Fault}
    (h : p.run m.dictionary m.stack = .error f) : m.primitiveStep p = .fault f m := by
  unfold primitiveStep
  rw [h]

/-- A primitive word lacks operands exactly if the stack holds fewer cells than its arity. If it meets
a fault, whichever it is, the machine is the one before it, and so is the stack when the word is run
in place. Otherwise only the stack and the output change, and the stack keeps all cells below those
that the word reaches, in their places. -/
theorem primitive_words_atomic (m : Machine) (p : Primitive) :
    ((∃ word m', m.primitiveStep p = .fault (.underflow word) m') ↔ m.stack.length < p.arity) ∧
    (∀ f m', m.primitiveStep p = .fault f m' →
      m' = m ∧ p.inPlace m.dictionary { stack := m.stack } = (.error f, { stack := m.stack })) ∧
    (∀ m', m.primitiveStep p = .next m' →
      m'.control = m.control ∧ m'.dictionary = m.dictionary ∧ m'.compilation = m.compilation ∧
      (∃ emitted, p.inPlace m.dictionary { stack := m.stack } =
        (.ok (), { stack := m'.stack, emitted })) ∧
      (p ≠ .clear → p.reach m.stack ≤ m.stack.length ∧
        ∃ results, m'.stack = results ++ m.stack.drop (p.reach m.stack))) ∧
    ∀ name body, m.primitiveStep p ≠ .call name body := by
  have hplace := p.inPlace_eq_run m.dictionary m.stack
  cases hrun : p.run m.dictionary m.stack with
  | error f =>
    have hstep := primitiveStep_of_error hrun
    rw [hrun] at hplace
    rw [hstep]
    refine ⟨?_, ?_, nofun, nofun⟩
    · rw [← Primitive.run_eq_underflow_iff (d := m.dictionary), hrun]
      simp
    · rintro f' m' ⟨⟩
      exact ⟨rfl, hplace⟩
  | ok e =>
    obtain ⟨output, hstep⟩ := primitiveStep_of_ok hrun
    rw [hrun] at hplace
    rw [hstep]
    refine ⟨?_, nofun, ?_, nofun⟩
    · rw [← Primitive.run_eq_underflow_iff (d := m.dictionary), hrun]
      simp
    · rintro m' ⟨⟩
      refine ⟨rfl, rfl, rfl, ⟨e.emitted, hplace⟩, fun hclear => ?_⟩
      exact ⟨p.reach_le_of_run hrun, p.stack_of_run hrun hclear⟩

/-- An index on three texts. -/
def threeTexts (index : Int64) : Machine where
  stack := [.int index, .str "c", .str "b", .str "a"]

/-- `ROLL` with the index five meets a fault and leaves the index where it was; with the index one it
leaves the undermost text in place. -/
theorem primitive_words_atomic_roll :
    (threeTexts 5).primitiveStep .roll = .fault (.badIndex "ROLL" 5 3) (threeTexts 5) ∧
    Primitive.roll.inPlace {} { stack := (threeTexts 5).stack } =
      (.error (.badIndex "ROLL" 5 3), { stack := (threeTexts 5).stack }) ∧
    ∃ m' results, (threeTexts 1).primitiveStep .roll = .next m' ∧
      m'.stack = results ++ [.str "a"] := by
  have hfault : (threeTexts 5).primitiveStep .roll = .fault (.badIndex "ROLL" 5 3) (threeTexts 5) :=
    rfl
  have hnext : (threeTexts 1).primitiveStep .roll =
      .next { threeTexts 1 with stack := [.str "b", .str "c", .str "a"] } := rfl
  obtain ⟨-, hfaults, -⟩ := primitive_words_atomic (threeTexts 5) .roll
  obtain ⟨-, -, hsucceeds, -⟩ := primitive_words_atomic (threeTexts 1) .roll
  obtain ⟨-, -, -, -, hbelow⟩ := hsucceeds _ hnext
  obtain ⟨-, results, hstack⟩ := hbelow (by decide)
  exact ⟨hfault, (hfaults _ _ hfault).2, _, results, hnext, hstack⟩

end StackLogic.Machine
