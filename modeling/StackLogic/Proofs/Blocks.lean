import StackLogic.Machine.Run
import Mathlib.Data.List.Basic

/-!
# Structured control flow

A `Block` is a sequence of tokens in which conditionals and loops are closed and properly nested.
Blocks have a meaning of their own (`Block.eval`): a condition is taken from the operand stack, the
branch it chooses is evaluated and the other one is not looked at, and a loop body is evaluated at
most once. There are no markers in it.

The machine runs the tokens of a block in a single pass, and its markers have the same effect: a
block that is not skipped does what its meaning says and leaves the markers as they were
(`Block.realizes_run`), and a block that is skipped does nothing (`Block.runWith_skipping`).
-/

namespace StackLogic.Machine

/-! ## Blocks -/

/-- A control word as it is written, in any letter case. -/
structure Keyword (w : ControlWord) where
  token : Token
  spells : ControlWord.ofName? (Text.upper token) = some w

/-- A token that is no control word and neither `:` nor `;`, in any letter case. -/
structure Ordinary where
  token : Token
  not_control : ControlWord.ofName? (Text.upper token) = none
  ne_colon : Text.upper token ≠ ":"
  ne_semicolon : Text.upper token ≠ ";"

/-- Tokens with closed and nested control structures. -/
inductive Block where
  | empty
  | ordinary (t : Ordinary) (rest : Block)
  /-- `IF yes THEN rest` -/
  | conditional (i : Keyword .ifWord) (yes : Block) (t : Keyword .thenWord) (rest : Block)
  /-- `IF yes ELSE no THEN rest` -/
  | choice (i : Keyword .ifWord) (yes : Block) (e : Keyword .elseWord) (no : Block)
      (t : Keyword .thenWord) (rest : Block)
  /-- `BEGIN condition WHILE body REPEAT rest` -/
  | loop (b : Keyword .beginWord) (condition : Block) (w : Keyword .whileWord) (body : Block)
      (r : Keyword .repeatWord) (rest : Block)

/-- The tokens of a block. -/
def Block.tokens : Block → List Token
  | empty => []
  | ordinary t rest => t.token :: rest.tokens
  | conditional i yes t rest => i.token :: (yes.tokens ++ t.token :: rest.tokens)
  | choice i yes e no t rest =>
    i.token :: (yes.tokens ++ e.token :: (no.tokens ++ t.token :: rest.tokens))
  | loop b condition w body r rest =>
    b.token :: (condition.tokens ++ w.token :: (body.tokens ++ r.token :: rest.tokens))

/-- The meanings of names, where the bodies of defined words are blocks. -/
structure Vocabulary where
  /-- The names in upper case with the bodies of defined words, and with primitive words. -/
  words : Table (Block ⊕ Primitive)

namespace Vocabulary

/-- The same meaning in a dictionary. -/
def meaning : Block ⊕ Primitive → Meaning :=
  Sum.elim (fun body => .defined body.tokens) .primitive

/-- The dictionary with these meanings. -/
def dictionary (v : Vocabulary) : Dictionary :=
  { words := v.words.map fun word => (word.1, meaning word.2) }

/-- The meaning of a name. -/
def meaning? (v : Vocabulary) (name : String) : Option (Block ⊕ Primitive) :=
  v.words.lookup (Text.upper name)

end Vocabulary

/-- Every defined word has a block as its body. -/
def Dictionary.Structured (d : Dictionary) : Prop :=
  ∀ name body, (name, .defined body) ∈ d.words → ∃ block : Block, block.tokens = body

/-! ## The meaning of a block -/

/-- What the meaning of a block works on. -/
structure Workspace where
  stack : Operands
  output : Output
  /-- The names of the active words, the innermost first. -/
  active : List String
  deriving DecidableEq

/-- Go on unless there was a fault. -/
def andThen {σ : Type} (ending : σ × Option Fault) (next : σ → σ × Option Fault) :
    σ × Option Fault :=
  match ending with
  | (s, none) => next s
  | (s, some f) => (s, some f)

theorem andThen_none {σ : Type} (s : σ) (next : σ → σ × Option Fault) :
    andThen (s, none) next = next s := rfl

/-- How the evaluation of a block ends. -/
abbrev Ending := Workspace × Option Fault

namespace Workspace

/-- Put a value on the stack. -/
def push (c : Workspace) (x : Value) : Ending := ({ c with stack := x :: c.stack }, none)

/-- Take a condition from the stack and go on accordingly. -/
def test (c : Workspace) (word : String) (yes no : Workspace → Ending) : Ending :=
  match c.stack with
  | [] => (c, some (.underflow word))
  | flag :: rest =>
    if flag.isTruthy then yes { c with stack := rest } else no { c with stack := rest }

/-- Do what a primitive word does. -/
def primitive (c : Workspace) (d : Dictionary) (p : Primitive) : Ending :=
  match p.run d c.stack with
  | .ok effect =>
    let output := match effect.emitted with
      | some text => c.output.log text
      | none => c.output
    ({ c with stack := effect.stack, output }, none)
  | .error f => (c, some f)

end Workspace

namespace Vocabulary

/-- Carry out a meaning; bodies are evaluated by `call`. -/
def carryOut (v : Vocabulary) (call : String → Block → Workspace → Ending) (name : String)
    (c : Workspace) : Block ⊕ Primitive → Ending
  | .inl body => call name body c
  | .inr p => c.primitive v.dictionary p

/-- What an ordinary token does: it calls the innermost active word, or it is a text, a word or a
number. -/
def perform (v : Vocabulary) (call : String → Block → Workspace → Ending) (t : Token)
    (c : Workspace) : Ending :=
  if Text.upper t = "RECURSE" then
    match c.active with
    | [] => (c, some (.malformed .recurseOutside))
    | name :: _ =>
      match v.meaning? name with
      | some meaning => v.carryOut call name c meaning
      | none => (c, some (.unknownWord name))
  else if t.isQuoted then c.push (.str t.unquote)
  else
    match v.meaning? (Text.upper t) with
    | some meaning => v.carryOut call (Text.upper t) c meaning
    | none =>
      match Value.ofLiteral? t with
      | some x => c.push x
      | none => (c, some (.unknownWord t))

end Vocabulary

namespace Block

/-- Evaluate a block; bodies of defined words are evaluated by `call`. -/
def evalWith (v : Vocabulary) (call : String → Block → Workspace → Ending) :
    Block → Workspace → Ending
  | empty, s => (s, none)
  | ordinary t rest, s => andThen (v.perform call t.token s) (rest.evalWith v call)
  | conditional _ yes _ rest, s =>
    andThen (s.test "IF" (yes.evalWith v call) fun s' => (s', none)) (rest.evalWith v call)
  | choice _ yes _ no _ rest, s =>
    andThen (s.test "IF" (yes.evalWith v call) (no.evalWith v call)) (rest.evalWith v call)
  | loop _ condition _ body _ rest, s =>
    andThen (condition.evalWith v call s) fun s₁ =>
      andThen (s₁.test "WHILE" (body.evalWith v call) fun s₂ => (s₂, none)) (rest.evalWith v call)

/-- Evaluate a block with room for so many more active words; `limit` is reported when there is no
room left. -/
def eval (v : Vocabulary) (limit : Nat) : Nat → Block → Workspace → Ending
  | 0 => evalWith v fun _ _ c => (c, some (.callDepth limit))
  | room + 1 => evalWith v fun name body c =>
    let (c', fault?) := eval v limit room body { c with active := name :: c.active }
    ({ c' with active := c'.active.tail }, fault?)

end Block

/-! ## Steps of the machine -/

/-- The machine with these markers and this workspace. Nothing else changes while a block runs. -/
def place (m : Machine) (c : Control) (s : Workspace) : Machine :=
  { m with control := c, stack := s.stack, output := s.output, active := s.active }

/-- The workspace of a machine. -/
def workspace (m : Machine) : Workspace :=
  { stack := m.stack, output := m.output, active := m.active }

variable {m : Machine} {c : Control} {s : Workspace} {w : ControlWord} {v : Vocabulary}
  {call : String → List Token → Machine → Halt}

/-- Tokens are run one by one, until one of them faults. -/
theorem runWith_cons (t : Token) (ts : List Token) (m : Machine) :
    runWith call (t :: ts) m = andThen (runWith call [t] m) (runWith call ts) := by
  cases hstep : m.step t with
  | next m' => simp only [runWith, hstep, andThen]
  | fault f m' => simp only [runWith, hstep, andThen]
  | call name body =>
    simp only [runWith, hstep]
    rcases call name body m with ⟨m', _ | f⟩ <;> rfl

/-- A list of tokens is run after another one, unless this one faults. -/
theorem runWith_append (xs ys : List Token) (m : Machine) :
    runWith call (xs ++ ys) m = andThen (runWith call xs m) (runWith call ys) := by
  induction xs generalizing m with
  | nil => rfl
  | cons t ts ih =>
    rw [List.cons_append, runWith_cons, runWith_cons t ts]
    rcases runWith call [t] m with ⟨m', _ | f⟩
    · exact ih m'
    · rfl

/-- Where a control word leads to. -/
def controlEnding (m : Machine) (s : Workspace) (result : ControlState × Option Fault) : Halt :=
  (m.place result.1.control { s with stack := result.1.stack }, result.2)

/-- A control word is looked at in any case, and it calls nothing. -/
theorem runWith_keyword (hd : m.compilation.compiling = false) (k : Keyword w) (ts : List Token) :
    runWith call (k.token :: ts) (m.place c s) =
      andThen (m.controlEnding s (w.run { control := c, stack := s.stack })) (runWith call ts) := by
  have hstep : (m.place c s).step k.token = (m.place c s).controlStep w := by
    simp only [step, place, hd, Bool.false_eq_true, if_false, k.spells]
  rw [runWith, hstep, controlStep]
  simp only [place]
  rcases w.run { control := c, stack := s.stack } with ⟨st, _ | f⟩ <;> rfl

/-- `THEN` closes an `IF`. -/
theorem runWith_then {k : Marker} (hd : m.compilation.compiling = false) (t : Keyword .thenWord)
    (hk : k.isIf = true) (ts : List Token) :
    runWith call (t.token :: ts) (m.place (k :: c) s) = runWith call ts (m.place c s) := by
  rw [runWith_keyword hd, ControlWord.run, ControlState.closeIf]
  simp only [hk, if_true]
  rfl

/-- `ELSE` turns its `IF` around, unless all of it is skipped. -/
theorem runWith_else {k : Marker} (hd : m.compilation.compiling = false) (e : Keyword .elseWord)
    (hk : k.isIf = true) (ts : List Token) :
    runWith call (e.token :: ts) (m.place (k :: c) s) =
      runWith call ts (m.place ((if c.isSkipping then k else k.flip) :: c) s) := by
  have hbelow : Control.isSkippingBelowTop (k :: c) = c.isSkipping := rfl
  have hturned : Control.setTop (k :: c) k.flip = k.flip :: c := rfl
  rw [runWith_keyword hd, ControlWord.run, ControlState.otherBranch]
  simp only [List.head?_cons, hk, if_true, hbelow, hturned]
  split <;> rfl

/-- `BEGIN` opens a loop. -/
theorem runWith_begin (hd : m.compilation.compiling = false) (b : Keyword .beginWord)
    (ts : List Token) :
    runWith call (b.token :: ts) (m.place c s) = runWith call ts (m.place (.loop :: c) s) := by
  rw [runWith_keyword hd]
  rfl

/-- `REPEAT` closes a `WHILE` together with its `BEGIN`. -/
theorem runWith_repeat {k : Marker} (hd : m.compilation.compiling = false) (r : Keyword .repeatWord)
    (hk : k.isWhile = true) (ts : List Token) :
    runWith call (r.token :: ts) (m.place (k :: .loop :: c) s) =
      runWith call ts (m.place c s) := by
  rw [runWith_keyword hd, ControlWord.run, ControlState.closeRepeat]
  simp only [hk, if_true]
  rfl

/-! ## Skipped blocks -/

theorem isSkipping_cons (k : Marker) (c : Control) :
    Control.isSkipping (k :: c) = (k.isSkip || c.isSkipping) := rfl

/-- In skipped text, an `IF` does not look at the stack and is skipped. -/
theorem runWith_if_skipping (hd : m.compilation.compiling = false) (hs : c.isSkipping = true)
    (i : Keyword .ifWord) (ts : List Token) :
    runWith call (i.token :: ts) (m.place c s) = runWith call ts (m.place (.ifSkip :: c) s) := by
  rw [runWith_keyword hd, ControlWord.run]
  simp only [hs, if_true]
  rfl

/-- In skipped text, a `WHILE` does not look at the stack and is skipped. -/
theorem runWith_while_skipping (hd : m.compilation.compiling = false) (hs : c.isSkipping = true)
    (w : Keyword .whileWord) (ts : List Token) :
    runWith call (w.token :: ts) (m.place c s) = runWith call ts (m.place (.whileSkip :: c) s) := by
  rw [runWith_keyword hd, ControlWord.run]
  simp only [hs, if_true]
  rfl

/-- While tokens are skipped, a block changes nothing at all: what it opens it closes again. -/
theorem Block.runWith_skipping (block : Block) (hd : m.compilation.compiling = false)
    (hs : c.isSkipping = true) :
    runWith call block.tokens (m.place c s) = (m.place c s, none) := by
  induction block generalizing c with
  | empty => rfl
  | ordinary t rest ih =>
    have hstep : (m.place c s).step t.token = .next (m.place c s) := by
      simp only [step, place, hd, Bool.false_eq_true, if_false, t.not_control, hs, if_true]
    rw [tokens, runWith, hstep]
    exact ih hs
  | conditional i yes t rest ihYes ihRest =>
    rw [tokens, runWith_if_skipping hd hs, runWith_append, ihYes rfl, andThen_none,
      runWith_then hd t rfl]
    exact ihRest hs
  | choice i yes e no t rest ihYes ihNo ihRest =>
    -- the conditional is skipped as a whole, so `ELSE` does not turn
    rw [tokens, runWith_if_skipping hd hs, runWith_append, ihYes rfl, andThen_none,
      runWith_else hd e rfl, if_pos hs, runWith_append, ihNo rfl, andThen_none,
      runWith_then hd t rfl]
    exact ihRest hs
  | loop b condition w body r rest ihCondition ihBody ihRest =>
    have hloop : Control.isSkipping (.loop :: c) = true := by rw [isSkipping_cons, hs]; rfl
    rw [tokens, runWith_begin hd, runWith_append, ihCondition hloop, andThen_none,
      runWith_while_skipping hd hloop, runWith_append, ihBody rfl, andThen_none,
      runWith_repeat hd r rfl]
    exact ihRest hs

/-! ## Blocks that are not skipped -/

/-- The run ends as the evaluation says, and if there is no fault, with the markers `c`. -/
def Realizes (m : Machine) (c : Control) (e : Ending) (h : Halt) : Prop :=
  ∃ c', h = (m.place c' e.1, e.2) ∧ (e.2 = none → c' = c)

theorem realizes_done (m : Machine) (c : Control) (s : Workspace) :
    Realizes m c (s, none) (m.place c s, none) :=
  ⟨c, rfl, fun _ => rfl⟩

theorem realizes_fault (m : Machine) (c c' : Control) (s : Workspace) (f : Fault) :
    Realizes m c (s, some f) (m.place c' s, some f) :=
  ⟨c', rfl, nofun⟩

/-- The markers in between need not be those at the end. -/
theorem Realizes.andThen {c' : Control} {e : Ending} {h : Halt} {f : Workspace → Ending}
    {k : Machine → Halt} (hr : Realizes m c e h)
    (hk : ∀ s, Realizes m c' (f s) (k (m.place c s))) :
    Realizes m c' (andThen e f) (andThen h k) := by
  obtain ⟨c₁, rfl, hc⟩ := hr
  obtain ⟨s, _ | fault⟩ := e
  · obtain rfl := hc rfl
    exact hk s
  · exact realizes_fault m c' c₁ s fault

/-- The dictionary of a vocabulary binds its words to their tokens. -/
theorem get?_dictionary (v : Vocabulary) (name : String) :
    v.dictionary.get? name = (v.meaning? name).map Vocabulary.meaning := by
  unfold Dictionary.get? Vocabulary.meaning? Vocabulary.dictionary
  induction v.words with
  | nil => rfl
  | cons word rest ih =>
    rw [List.map_cons, Table.lookup_cons, Table.lookup_cons, ih]
    split <;> rfl

/-- Calls of defined words end as the evaluation of their bodies says. -/
def CallsRealize (m : Machine) (callBlock : String → Block → Workspace → Ending)
    (call : String → List Token → Machine → Halt) : Prop :=
  ∀ name body c s, Control.isSkipping c = false →
    Realizes m c (callBlock name body s) (call name body.tokens (m.place c s))

variable {callBlock : String → Block → Workspace → Ending}

/-- What a step leads to, when calls are carried out. -/
def Step.finish (call : String → List Token → Machine → Halt) (m : Machine) : Step → Halt
  | .next m' => (m', none)
  | .fault f m' => (m', some f)
  | .call name body => call name body m

/-- One token is one step, with its call if there is one. -/
theorem runWith_singleton (t : Token) (m : Machine) :
    runWith call [t] m = (m.step t).finish call m := by
  cases hstep : m.step t with
  | next m' => simp only [runWith, hstep, Step.finish]
  | fault f m' => simp only [runWith, hstep, Step.finish]
  | call name body =>
    simp only [runWith, hstep, Step.finish]
    rcases call name body m with ⟨m', _ | f⟩ <;> rfl

/-- A word does what its block or its primitive does, if calls do. -/
theorem realizes_carryOut (hv : m.dictionary = v.dictionary)
    (hcall : CallsRealize m callBlock call) (hs : c.isSkipping = false) (name : String)
    (meaning : Block ⊕ Primitive) :
    Realizes m c (v.carryOut callBlock name s meaning)
      (((m.place c s).meaningStep name
        (meaning.elim (fun body => .defined body.tokens) .primitive)).finish call
        (m.place c s)) := by
  cases meaning with
  | inl body => exact hcall name body c s hs
  | inr p =>
    have hrun : p.run (m.place c s).dictionary (m.place c s).stack = p.run v.dictionary s.stack :=
      congrArg (fun d => p.run d s.stack) hv
    simp only [Sum.elim_inr, meaningStep, primitiveStep, hrun, Vocabulary.carryOut,
      Workspace.primitive]
    cases p.run v.dictionary s.stack with
    | ok effect => exact realizes_done m c _
    | error f => exact realizes_fault m c c s f

/-- An ordinary token does what the block of this token does. -/
theorem realizes_ordinary (hd : m.compilation.compiling = false) (hv : m.dictionary = v.dictionary)
    (hcall : CallsRealize m callBlock call) (hs : c.isSkipping = false) (t : Ordinary) :
    Realizes m c (v.perform callBlock t.token s) (runWith call [t.token] (m.place c s)) := by
  have hstep : (m.place c s).step t.token =
      (m.place c s).plainStep t.token (Text.upper t.token) := by
    simp only [step, place, hd, t.not_control, hs, Bool.false_eq_true, if_false]
  have hget : ∀ name, (m.place c s).dictionary.get? name =
      (v.meaning? name).map Vocabulary.meaning := by
    intro name
    rw [← get?_dictionary, ← hv]
    rfl
  rw [runWith_singleton, hstep, plainStep, if_neg t.ne_colon, if_neg t.ne_semicolon,
    Vocabulary.perform]
  split
  next =>
    have hactive : (m.place c s).active = s.active := rfl
    rw [recurseStep, hactive]
    cases s.active with
    | nil => exact realizes_fault m c c s _
    | cons name outer =>
      simp only [hget]
      cases v.meaning? name with
      | none => exact realizes_fault m c c s _
      | some meaning => exact realizes_carryOut hv hcall hs name meaning
  next =>
    split
    next => exact realizes_done m c _
    next =>
      simp only [hget]
      cases v.meaning? (Text.upper t.token) with
      | some meaning => exact realizes_carryOut hv hcall hs _ meaning
      | none =>
        cases Value.ofLiteral? t.token with
        | some x => exact realizes_done m c _
        | none => exact realizes_fault m c c s _

/-- A condition that is taken from the stack decides between two ways to go on, each under its own
marker. -/
theorem realizes_branch {c' : Control} {word : String} {run skip : Marker}
    {yes no : Workspace → Ending} {k : Machine → Halt}
    (hyes : ∀ s, Realizes m c' (yes s) (k (m.place (run :: c) s)))
    (hno : ∀ s, Realizes m c' (no s) (k (m.place (skip :: c) s))) :
    Realizes m c' (s.test word yes no)
      (andThen (m.controlEnding s
        (ControlState.branch { control := c, stack := s.stack } word run skip)) k) := by
  obtain ⟨stack, output, active⟩ := s
  cases stack with
  | nil => exact realizes_fault m c' c _ _
  | cons flag below =>
    unfold ControlState.branch Workspace.test
    cases hflag : flag.isTruthy with
    | true => simpa [hflag, controlEnding, andThen] using hyes _
    | false => simpa [hflag, controlEnding, andThen] using hno _

theorem andThen_test (word : String) (yes no next : Workspace → Ending) (s : Workspace) :
    andThen (s.test word yes no) next =
      s.test word (fun s' => andThen (yes s') next) (fun s' => andThen (no s') next) := by
  unfold Workspace.test
  cases s.stack with
  | nil => rfl
  | cons flag below =>
    cases hflag : flag.isTruthy with
    | true => simp only [hflag, if_true]
    | false => simp only [hflag, Bool.false_eq_true, if_false]

/-- A block that is not skipped does what its meaning says. -/
theorem Block.realizes_runWith (block : Block) (hd : m.compilation.compiling = false)
    (hv : m.dictionary = v.dictionary) (hcall : CallsRealize m callBlock call)
    (hs : c.isSkipping = false) :
    Realizes m c (block.evalWith v callBlock s) (runWith call block.tokens (m.place c s)) := by
  induction block generalizing c s with
  | empty => exact realizes_done m c s
  | ordinary t rest ih =>
    rw [tokens, runWith_cons]
    exact (realizes_ordinary hd hv hcall hs t).andThen fun s' => ih hs
  | conditional i yes t rest ihYes ihRest =>
    rw [tokens, runWith_keyword hd, evalWith, andThen_test, ControlWord.run]
    simp only [hs, Bool.false_eq_true, if_false]
    refine realizes_branch (fun s' => ?_) fun s' => ?_
    · rw [runWith_append]
      refine (ihYes (c := .ifRun :: c) hs).andThen fun s₁ => ?_
      rw [runWith_then hd t rfl]
      exact ihRest hs
    · rw [runWith_append, yes.runWith_skipping hd rfl, andThen_none, andThen_none,
        runWith_then hd t rfl]
      exact ihRest hs
  | choice i yes e no t rest ihYes ihNo ihRest =>
    rw [tokens, runWith_keyword hd, evalWith, andThen_test, ControlWord.run]
    simp only [hs, Bool.false_eq_true, if_false]
    refine realizes_branch (fun s' => ?_) fun s' => ?_
    · rw [runWith_append]
      refine (ihYes (c := .ifRun :: c) hs).andThen fun s₁ => ?_
      -- nothing below is skipped, so `ELSE` turns the marker and the other branch is skipped
      rw [runWith_else hd e rfl, if_neg (by simp [hs]), runWith_append,
        no.runWith_skipping hd rfl, andThen_none, runWith_then hd t rfl]
      exact ihRest hs
    · rw [runWith_append, yes.runWith_skipping hd rfl, andThen_none, runWith_else hd e rfl,
        if_neg (by simp [hs]), runWith_append]
      refine (ihNo (c := .ifRun :: c) hs).andThen fun s₁ => ?_
      rw [runWith_then hd t rfl]
      exact ihRest hs
  | loop b condition w body r rest ihCondition ihBody ihRest =>
    rw [tokens, runWith_begin hd, runWith_append]
    refine (ihCondition (c := .loop :: c) hs).andThen fun s₁ => ?_
    have hloop : Control.isSkipping (.loop :: c) = false := hs
    rw [runWith_keyword hd, andThen_test, ControlWord.run]
    simp only [hloop, Bool.false_eq_true, if_false, List.head?_cons, if_true]
    refine realizes_branch (fun s' => ?_) fun s' => ?_
    · rw [runWith_append]
      refine (ihBody (c := .whileRun :: .loop :: c) hs).andThen fun s₂ => ?_
      rw [runWith_repeat hd r rfl]
      exact ihRest hs
    · rw [runWith_append, body.runWith_skipping hd rfl, andThen_none, andThen_none,
        runWith_repeat hd r rfl]
      exact ihRest hs

/-- The meaning of a block with any room for active words. -/
theorem Block.realizes_run (room : Nat) (block : Block) (hd : m.compilation.compiling = false)
    (hv : m.dictionary = v.dictionary) (hs : c.isSkipping = false) :
    Realizes m c (block.eval v m.limits.callDepth room s)
      (run room block.tokens (m.place c s)) := by
  induction room generalizing block c s with
  | zero =>
    refine block.realizes_runWith hd hv (fun name body c s hs => ?_) hs
    exact realizes_fault m c c s _
  | succ room ih =>
    refine block.realizes_runWith hd hv (fun name body c s hs => ?_) hs
    obtain ⟨c', hrun, hc⟩ := ih body (s := { s with active := name :: s.active }) hs
    refine ⟨c', ?_, hc⟩
    have hplace : { m.place c s with active := name :: (m.place c s).active } =
        m.place c { s with active := name :: s.active } := rfl
    rw [hplace, hrun]
    rfl

/-! ## Single-pass control flow is structured -/

theorem Vocabulary.structured (v : Vocabulary) : v.dictionary.Structured := by
  intro name body hmem
  obtain ⟨⟨found, block | p⟩, -, heq⟩ := List.mem_map.1 hmem
  · exact ⟨block, Meaning.defined.inj (Prod.mk.inj heq).2⟩
  · cases heq

/-- A structured dictionary is that of a vocabulary. -/
theorem Dictionary.Structured.exists_vocabulary {d : Dictionary} (hd : d.Structured) :
    ∃ v : Vocabulary, v.dictionary = d := by
  obtain ⟨table⟩ := d
  suffices h : ∃ words : Table (Block ⊕ Primitive),
      words.map (fun word => (word.1, Vocabulary.meaning word.2)) = table by
    obtain ⟨words, rfl⟩ := h
    exact ⟨⟨words⟩, rfl⟩
  change ∀ name body, (name, .defined body) ∈ table → ∃ block : Block, block.tokens = body at hd
  induction table with
  | nil => exact ⟨[], rfl⟩
  | cons entry rest ih =>
    obtain ⟨words, hwords⟩ := ih fun name body hmem => hd name body (List.mem_cons_of_mem _ hmem)
    obtain ⟨name, p | body⟩ := entry
    · exact ⟨(name, .inr p) :: words, by rw [List.map_cons, hwords]; rfl⟩
    · obtain ⟨block, hblock⟩ := hd name body List.mem_cons_self
      exact ⟨(name, .inl block) :: words, by rw [List.map_cons, hwords, ← hblock]; rfl⟩

/-- If all defined words have blocks as bodies and no definition is open, the single pass over the
tokens of a block is structured evaluation. Where nothing is skipped, the run ends with the fault,
the operands and the output of the evaluation, and without a fault the markers are as before. Where
something is skipped, the run changes nothing. -/
theorem run_tokens_structured (m : Machine) (hd : m.compilation.compiling = false)
    (hbodies : m.dictionary.Structured) :
    (∃ v : Vocabulary, v.dictionary = m.dictionary) ∧
    ∀ v : Vocabulary, v.dictionary = m.dictionary → ∀ (room : Nat) (block : Block),
      (m.control.isSkipping = false →
        ∃ c, run room block.tokens m =
            (m.place c (block.eval v m.limits.callDepth room m.workspace).1,
              (block.eval v m.limits.callDepth room m.workspace).2) ∧
          ((block.eval v m.limits.callDepth room m.workspace).2 = none → c = m.control)) ∧
      (m.control.isSkipping = true → run room block.tokens m = (m, none)) := by
  refine ⟨hbodies.exists_vocabulary, fun v hv room block => ⟨fun hs => ?_, fun hs => ?_⟩⟩
  · exact block.realizes_run (s := m.workspace) room hd hv.symm hs
  · cases room with
    | zero => exact block.runWith_skipping (s := m.workspace) hd hs
    | succ room => exact block.runWith_skipping (s := m.workspace) hd hs

/-- The word `DOWN`, defined as `DUP IF 1 - RECURSE THEN`, and the primitive words. -/
def countdown : Vocabulary where
  words := ("DOWN", .inl
    (.ordinary ⟨"DUP", by decide +kernel, by decide +kernel, by decide +kernel⟩
      (.conditional ⟨"IF", by decide +kernel⟩
        (.ordinary ⟨"1", by decide +kernel, by decide +kernel, by decide +kernel⟩
          (.ordinary ⟨"-", by decide +kernel, by decide +kernel, by decide +kernel⟩
            (.ordinary ⟨"recurse", by decide +kernel, by decide +kernel, by decide +kernel⟩
              .empty)))
        ⟨"then", by decide +kernel⟩ .empty))) ::
    Primitive.all.map fun p => (p.name, .inr p)

/-- The block `2 DOWN`. -/
def countdownFromTwo : Block :=
  .ordinary ⟨"2", by decide +kernel, by decide +kernel, by decide +kernel⟩
    (.ordinary ⟨"DOWN", by decide +kernel, by decide +kernel, by decide +kernel⟩ .empty)

/-- `2 DOWN` counts down to zero when nothing is skipped, with room for three active words but not
for two, and does nothing in a branch that is skipped. -/
theorem run_tokens_structured_countdown :
    countdown.dictionary.Structured ∧
    (∃ c, run 3 countdownFromTwo.tokens { dictionary := countdown.dictionary } =
      (place { dictionary := countdown.dictionary } c
        { stack := [.int 0], output := {}, active := [] }, none) ∧ c = []) ∧
    (run 2 countdownFromTwo.tokens { dictionary := countdown.dictionary }).2 =
      some (.callDepth 128) ∧
    run 3 countdownFromTwo.tokens { dictionary := countdown.dictionary, control := [.ifSkip] } =
      ({ dictionary := countdown.dictionary, control := [.ifSkip] }, none) := by
  have hbodies : countdown.dictionary.Structured := countdown.structured
  obtain ⟨_, hlive⟩ := run_tokens_structured { dictionary := countdown.dictionary } rfl hbodies
  obtain ⟨_, hskipped⟩ := run_tokens_structured
    { dictionary := countdown.dictionary, control := [.ifSkip] } rfl hbodies
  refine ⟨hbodies, ?_, ?_, (hskipped countdown rfl 3 countdownFromTwo).2 rfl⟩
  · have heval : countdownFromTwo.eval countdown 128 3 { stack := [], output := {}, active := [] } =
        ({ stack := [.int 0], output := {}, active := [] }, none) := by decide +kernel
    obtain ⟨c, hrun, hc⟩ := (hlive countdown rfl 3 countdownFromTwo).1 rfl
    rw [workspace, heval] at hrun hc
    exact ⟨c, hrun, hc rfl⟩
  · have heval : (countdownFromTwo.eval countdown 128 2
        { stack := [], output := {}, active := [] }).2 = some (.callDepth 128) := by decide +kernel
    obtain ⟨c, hrun, _⟩ := (hlive countdown rfl 2 countdownFromTwo).1 rfl
    rw [hrun]
    exact heval

end StackLogic.Machine
