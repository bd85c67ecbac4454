import StackLogic.Proofs.Derivation

/-!
# Variables of expressions and goals

The variables of a goal are those of its terms (`Goal.terms`) and of its expressions (`Goal.exprs`).
`Goal.Over N g` says that all of them have the property `N`.
-/

namespace StackLogic.Horn

/-! ## Variables of expressions -/

namespace Expr

/-- Induction over expressions, with the hypothesis for all arguments of a call at once. -/
@[elab_as_elim, induction_eliminator]
theorem induct {motive : Expr → Prop} (num : ∀ n, motive (.num n))
    (var : ∀ name, motive (.var name)) (neg : ∀ e, motive e → motive (.neg e))
    (binary : ∀ op left right, motive left → motive right → motive (.binary op left right))
    (call : ∀ f args, (∀ e ∈ args, motive e) → motive (.call f args)) (e : Expr) : motive e :=
  match e with
  | .num n => num n
  | .var name => var name
  | .neg e => neg e (induct num var neg binary call e)
  | .binary op left right =>
    binary op left right (induct num var neg binary call left)
      (induct num var neg binary call right)
  | .call f args => call f args fun e _ => induct num var neg binary call e

/-- The variables of an expression in the order of their first occurrence. -/
def variableNames (e : Expr) : List String := e.addVariables []

variable {x : String} {f : String → String}

theorem addVariablesAll_eq_foldl (names : List String) (es : List Expr) :
    addVariablesAll names es = es.foldl addVariables names := by
  induction es generalizing names with
  | nil => rfl
  | cons e rest ih => simp [addVariablesAll, ih]

theorem renameAll_eq_map (f : String → String) (es : List Expr) :
    renameAll f es = es.map (rename f) := by
  induction es with
  | nil => rfl
  | cons e rest ih => simp [renameAll, ih]

/-- Collecting the variables of an expression adds them to the names, whatever these are. -/
theorem mem_addVariables (e : Expr) (names : List String) :
    x ∈ e.addVariables names ↔ x ∈ names ∨ x ∈ e.variableNames := by
  induction e generalizing names with
  | num n => simp [variableNames, addVariables]
  | var name => simp [variableNames, addVariables, Term.mem_addName]
  | neg e ih => exact ih names
  | binary op left right ihl ihr =>
    simp only [variableNames, addVariables]
    rw [ihr, ihl, ihr (left.addVariables []), ihl []]
    simp [or_assoc]
  | call g args ih =>
    simp only [variableNames, addVariables, addVariablesAll_eq_foldl]
    rw [Term.mem_foldl_names args ih, Term.mem_foldl_names args ih]
    simp

@[simp] theorem variableNames_num (n : Number) : (num n).variableNames = [] := rfl

@[simp] theorem mem_variableNames_var {name : String} :
    x ∈ (var name).variableNames ↔ x = name := by
  simp [variableNames, addVariables, Term.mem_addName]

@[simp] theorem variableNames_neg (e : Expr) : (neg e).variableNames = e.variableNames := rfl

@[simp] theorem mem_variableNames_binary {op : BinaryOp} {left right : Expr} :
    x ∈ (binary op left right).variableNames ↔
      x ∈ left.variableNames ∨ x ∈ right.variableNames := by
  rw [variableNames, addVariables, mem_addVariables, mem_addVariables left]
  simp

@[simp] theorem mem_variableNames_call {g : Function} {args : List Expr} :
    x ∈ (call g args).variableNames ↔ ∃ e ∈ args, x ∈ e.variableNames := by
  rw [variableNames, addVariables, addVariablesAll_eq_foldl,
    Term.mem_foldl_names args fun e _ => mem_addVariables e]
  simp

/-- The variables of a renamed expression are the new names of its variables. -/
theorem mem_variableNames_rename (e : Expr) :
    x ∈ (e.rename f).variableNames ↔ ∃ y ∈ e.variableNames, x = f y := by
  induction e with
  | num n => simp [rename]
  | var name => simp [rename]
  | neg e ih => exact ih
  | binary op left right ihl ihr =>
    simp only [rename, mem_variableNames_binary, ihl, ihr, or_and_right, exists_or]
  | call g args ih =>
    simp only [rename, renameAll_eq_map, mem_variableNames_call, List.mem_map]
    constructor
    · rintro ⟨_, ⟨e, he, rfl⟩, hx⟩
      obtain ⟨y, hy, hxy⟩ := (ih e he).1 hx
      exact ⟨y, ⟨e, he, hy⟩, hxy⟩
    · rintro ⟨y, ⟨e, he, hy⟩, hxy⟩
      exact ⟨_, ⟨e, he, rfl⟩, (ih e he).2 ⟨y, hy, hxy⟩⟩

end Expr

/-! ## Variables of goals -/

namespace Goal

variable {x : String} {f : String → String}

/-- The expressions of a goal. -/
def exprs : Goal → List Expr
  | .is _ e => [e]
  | .compare _ left right => [left, right]
  | _ => []

/-- All variables of the terms and of the expressions of the goal have the property. -/
structure Over (N : String → Prop) (g : Goal) : Prop where
  terms : ∀ t ∈ g.terms, ∀ x ∈ t.variableNames, N x
  exprs : ∀ e ∈ g.exprs, ∀ x ∈ e.variableNames, N x

theorem mem_addVariables (g : Goal) (names : List String) :
    x ∈ g.addVariables names ↔ x ∈ names ∨
      (∃ t ∈ g.terms, x ∈ t.variableNames) ∨ ∃ e ∈ g.exprs, x ∈ e.variableNames := by
  cases g with
  | call name args =>
    rw [addVariables, Term.addVariablesAll_eq_foldl,
      Term.mem_foldl_names args fun t _ => Term.mem_addVariables t]
    simp [Goal.terms, Goal.exprs]
  | _ =>
    simp [addVariables, Goal.terms, Goal.exprs, Term.mem_addVariables, Expr.mem_addVariables,
      or_assoc]

/-- The variables of goals are those of their terms and expressions. -/
theorem forall_mem_variablesOf {goals : List Goal} {N : String → Prop} :
    (∀ x ∈ variablesOf goals, N x) ↔ ∀ g ∈ goals, g.Over N := by
  have hmem : ∀ x, x ∈ variablesOf goals ↔ ∃ g ∈ goals,
      (∃ t ∈ g.terms, x ∈ t.variableNames) ∨ ∃ e ∈ g.exprs, x ∈ e.variableNames := by
    intro x
    rw [variablesOf, Term.mem_foldl_names goals fun g _ => g.mem_addVariables]
    simp
  constructor
  · intro h g hg
    exact ⟨fun t ht x hx => h x ((hmem x).2 ⟨g, hg, Or.inl ⟨t, ht, hx⟩⟩),
      fun e he x hx => h x ((hmem x).2 ⟨g, hg, Or.inr ⟨e, he, hx⟩⟩)⟩
  · intro h x hx
    obtain ⟨g, hg, ⟨t, ht, hxt⟩ | ⟨e, he, hxe⟩⟩ := (hmem x).1 hx
    · exact (h g hg).terms t ht x hxt
    · exact (h g hg).exprs e he x hxe

/-- Renaming a goal renames its expressions. -/
theorem exprs_rename (g : Goal) : (g.rename f).exprs = g.exprs.map (Expr.rename f) := by
  cases g <;> rfl

end Goal

end StackLogic.Horn
