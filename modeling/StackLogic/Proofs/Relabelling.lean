import StackLogic.Proofs.Loops
import StackLogic.Proofs.Variables

/-!
# Unification does not depend on the names of variables

A relabelling gives other names to variables and keeps different names apart. Everything that is
done with terms and bindings commutes with it: resolving, the occurs check, unification
(`unifyAll_rename`) and the value of expressions (`Expr.eval_rename`).
-/

namespace StackLogic.Horn

/-- A change of names that keeps names apart and leaves `_` as it is. -/
structure Relabelling where
  /-- The new name of a variable. -/
  toFun : String → String
  /-- Different names stay different. -/
  injective : ∀ {x y}, toFun x = toFun y → x = y
  /-- The anonymous variable keeps its name. -/
  anonymous : toFun Term.anonymousName = Term.anonymousName

instance : CoeFun Relabelling fun _ => String → String := ⟨Relabelling.toFun⟩

variable {ρ : Relabelling} {x y : String}

theorem Relabelling.eq_iff : ρ x = ρ y ↔ x = y :=
  ⟨ρ.injective, congrArg ρ⟩

theorem Relabelling.eq_anonymousName_iff : ρ x = Term.anonymousName ↔ x = Term.anonymousName := by
  rw [← ρ.anonymous, ρ.eq_iff, ρ.anonymous]

/-! ## Terms -/

namespace Term

/-- Renaming puts variables in the place of variables; `_` keeps its name. -/
theorem rename_eq_subst (ρ : Relabelling) (t : Term) : t.rename ρ = t.subst fun x => var (ρ x) := by
  refine subst_congr t fun x _ => ?_
  split
  next hx => rw [hx, ρ.anonymous]
  next => rfl

@[simp] theorem rename_var (ρ : Relabelling) (x : String) : (var x).rename ρ = var (ρ x) :=
  rename_eq_subst ρ (var x)

@[simp] theorem rename_atom (f : String → String) (a : String) : (atom a).rename f = atom a := rfl

@[simp] theorem rename_num (f : String → String) (n : Number) : (num n).rename f = num n := rfl

@[simp] theorem rename_str (f : String → String) (s : String) : (str s).rename f = str s := rfl

@[simp] theorem rename_list (f : String → String) (items : List Term) :
    (list items).rename f = list (items.map (rename f)) :=
  subst_list _ items

/-- A substitution after renaming is one for the new names. -/
theorem subst_rename (ρ : Relabelling) (f : String → Term) (t : Term) :
    (t.rename ρ).subst f = t.subst fun x => f (ρ x) := by
  rw [rename_eq_subst, subst_subst]
  rfl

theorem rename_subst_apply (f : String → Term) (g : String → String) (t : Term) :
    (t.subst f).rename g = t.subst fun x => (f x).rename g :=
  subst_subst f _ t

theorem weightAll_map {f : Term → Term} {ts : List Term} (h : ∀ t ∈ ts, (f t).weight = t.weight) :
    weightAll (ts.map f) = weightAll ts := by
  induction ts with
  | nil => rfl
  | cons t rest ih =>
    obtain ⟨ht, hrest⟩ := List.forall_mem_cons.1 h
    rw [List.map_cons, weightAll, weightAll, ht, ih hrest]

/-- Renaming keeps the weight, so that limits that are taken from weights stay. -/
@[simp] theorem weight_rename (f : String → String) (t : Term) :
    (t.rename f).weight = t.weight := by
  induction t with
  | var | atom | num | str => rfl
  | list items ih => rw [rename_list, weight, weight, weightAll_map ih]

@[simp] theorem isAnonymous_rename (ρ : Relabelling) (t : Term) :
    (t.rename ρ).isAnonymous = t.isAnonymous := by
  cases t with
  | var x =>
    rw [rename_var, Bool.eq_iff_iff]
    simpa [isAnonymous] using ρ.eq_anonymousName_iff
  | _ => rfl

theorem sameConstant_rename (f : String → String) (s t : Term) :
    (s.rename f).sameConstant (t.rename f) = s.sameConstant t := by
  cases s <;> cases t <;> rfl

/-- Renaming that keeps the variables of a term keeps the term. -/
theorem rename_eq_self {f : String → String} (t : Term) (h : ∀ x ∈ t.variableNames, f x = x) :
    t.rename f = t := by
  refine (subst_congr t fun x hx => ?_).trans t.subst_self
  rw [h x hx, ite_self]

end Term

/-! ## Bindings -/

namespace Bindings

theorem entriesWeight_map {f : String → String} {g : Term → Term} (es : List (String × Term))
    (h : ∀ t, (g t).weight = t.weight) :
    entriesWeight (es.map fun e => (f e.1, g e.2)) = entriesWeight es := by
  induction es with
  | nil => rfl
  | cons e rest ih => rw [List.map_cons, entriesWeight, entriesWeight, h, ih]

/-- Rename the bound variables and the variables in their values. -/
def rename (ρ : Relabelling) (b : Bindings) : Bindings where
  entries := b.entries.map fun e => (ρ e.1, e.2.rename ρ)
  weight := b.weight
  weight_eq := by rw [b.weight_eq, entriesWeight_map b.entries (Term.weight_rename ρ)]

@[simp] theorem rename_empty (ρ : Relabelling) : empty.rename ρ = empty := rfl

@[simp] theorem weight_rename (ρ : Relabelling) (b : Bindings) :
    (b.rename ρ).weight = b.weight := rfl

theorem rename_extend (ρ : Relabelling) (b : Bindings) (x : String) (t : Term) :
    (b.extend x t).rename ρ = (b.rename ρ).extend (ρ x) (t.rename ρ) := by
  simp [rename, extend]

/-- A renamed variable is bound to the renamed term. -/
theorem get?_rename (ρ : Relabelling) (b : Bindings) (x : String) :
    (b.rename ρ).get? (ρ x) = (b.get? x).map (Term.rename ρ) := by
  show List.lookup (ρ x) (b.entries.map fun e => (ρ e.1, e.2.rename ρ)) =
    (b.entries.lookup x).map (Term.rename ρ)
  induction b.entries with
  | nil => rfl
  | cons e rest ih =>
    obtain ⟨y, t⟩ := e
    by_cases hxy : x = y
    · simp [hxy]
    · have hx : (x == y) = false := by simpa using hxy
      have hρ : (ρ x == ρ y) = false := by simpa [ρ.eq_iff] using hxy
      simpa [List.lookup_cons, hx, hρ] using ih

theorem follow_rename (ρ : Relabelling) (b : Bindings) (n : Nat) (t : Term) :
    (b.rename ρ).follow n (t.rename ρ) = (b.follow n t).rename ρ := by
  induction n generalizing t with
  | zero => rfl
  | succ n ih =>
    cases t with
    | var x =>
      rw [Term.rename_var, follow, follow, get?_rename]
      cases b.get? x with
      | none => exact (Term.rename_var ρ x).symm
      | some u => exact ih u
    | _ => rfl

theorem resolve_rename (ρ : Relabelling) (b : Bindings) (t : Term) :
    (b.rename ρ).resolve (t.rename ρ) = (b.resolve t).rename ρ :=
  b.follow_rename ρ b.weight t

theorem expand_rename (ρ : Relabelling) (b : Bindings) (n : Nat) (t : Term) :
    (b.rename ρ).expand n (t.rename ρ) = (b.expand n t).rename ρ := by
  induction n generalizing t with
  | zero => rfl
  | succ n ih =>
    rw [expand, expand, Term.subst_rename, Term.rename_subst_apply]
    refine Term.subst_congr t fun x _ => ?_
    rw [get?_rename]
    cases b.get? x with
    | none => exact (Term.rename_var ρ x).symm
    | some u => exact ih u

/-- Renamed terms stand for renamed terms. -/
theorem resolveDeep_rename (ρ : Relabelling) (b : Bindings) (t : Term) :
    (b.rename ρ).resolveDeep (t.rename ρ) = (b.resolveDeep t).rename ρ :=
  b.expand_rename ρ b.weight t

/-- The occurs check does not depend on names. -/
theorem occurs_rename (ρ : Relabelling) (b : Bindings) (x : String) (t : Term) :
    (b.rename ρ).occurs (ρ x) (t.rename ρ) = b.occurs x t := by
  rw [Bool.eq_iff_iff, occurs_eq_true, occurs_eq_true, resolveDeep_rename, Term.rename_eq_subst,
    Term.mem_variableNames_subst]
  simp [ρ.eq_iff]

/-- Renaming before a binding is renaming after it. -/
theorem assign_rename (ρ : Relabelling) (b : Bindings) (x : String) (t : Term) :
    (b.rename ρ).assign (ρ x) (t.rename ρ) = (b.assign x t).map (rename ρ) := by
  unfold assign
  rw [occurs_rename, ← rename_extend]
  split <;> rfl

end Bindings

/-! ## Unification -/

/-- If one step does not depend on names, neither do the steps over two lists. -/
theorem unifyEach_rename (ρ : Relabelling) {step : Term → Term → Bindings → Option Bindings}
    (hstep : ∀ l r b, step (l.rename ρ) (r.rename ρ) (b.rename ρ) =
      (step l r b).map (Bindings.rename ρ)) (ls rs : List Term) (b : Bindings) :
    unifyEach step (ls.map (Term.rename ρ)) (rs.map (Term.rename ρ)) (b.rename ρ) =
      (unifyEach step ls rs b).map (Bindings.rename ρ) := by
  induction ls generalizing rs b with
  | nil => cases rs <;> rfl
  | cons l ls ih =>
    cases rs with
    | nil => rfl
    | cons r rs =>
      rw [List.map_cons, List.map_cons, unifyEach, unifyEach, hstep]
      cases step l r b with
      | none => rfl
      | some b' => exact ih rs b'

theorem unifyWithin_rename (ρ : Relabelling) (n : Nat) (l r : Term) (b : Bindings) :
    unifyWithin n (l.rename ρ) (r.rename ρ) (b.rename ρ) =
      (unifyWithin n l r b).map (Bindings.rename ρ) := by
  induction n generalizing l r b with
  | zero => rfl
  | succ n ih =>
    have hconstants : ∀ s t : Term,
        (if (s.rename ρ).sameConstant (t.rename ρ) then some (b.rename ρ) else none) =
          (if s.sameConstant t then some b else none).map (Bindings.rename ρ) := by
      intro s t
      rw [Term.sameConstant_rename]
      split <;> rfl
    rw [unifyWithin, unifyWithin, Term.isAnonymous_rename, Term.isAnonymous_rename,
      Bindings.resolve_rename, Bindings.resolve_rename]
    split
    · rfl
    · cases b.resolve l with
      | var x =>
        rw [Term.rename_var]
        cases b.resolve r with
        | var y =>
          rw [Term.rename_var]
          by_cases hxy : x = y
          · simp [hxy]
          · have hρ : ρ x ≠ ρ y := fun h => hxy (ρ.injective h)
            simpa [hxy, hρ] using b.assign_rename ρ x (.var y)
        | _ => exact b.assign_rename ρ x _
      | list xs =>
        rw [Term.rename_list]
        cases b.resolve r with
        | var y =>
          rw [Term.rename_var, ← Term.rename_list]
          exact b.assign_rename ρ y (.list xs)
        | list ys =>
          rw [Term.rename_list]
          exact unifyEach_rename ρ ih xs ys b
        | _ => exact hconstants (.list xs) _
      | _ =>
        cases b.resolve r with
        | var y =>
          rw [Term.rename_var]
          exact b.assign_rename ρ y _
        | _ => exact hconstants _ _

/-- Unification does not depend on the names of variables. -/
theorem unify_rename (ρ : Relabelling) (l r : Term) (b : Bindings) :
    unify (l.rename ρ) (r.rename ρ) (b.rename ρ) = (unify l r b).map (Bindings.rename ρ) := by
  rw [unify, unify, Bindings.weight_rename, Term.weight_rename, Term.weight_rename]
  exact unifyWithin_rename ρ _ l r b

theorem unifyAll_rename (ρ : Relabelling) (ls rs : List Term) (b : Bindings) :
    unifyAll (ls.map (Term.rename ρ)) (rs.map (Term.rename ρ)) (b.rename ρ) =
      (unifyAll ls rs b).map (Bindings.rename ρ) := by
  have hweight : ∀ ts : List Term,
      Term.weightAll (ts.map (Term.rename ρ)) = Term.weightAll ts :=
    fun ts => Term.weightAll_map fun t _ => t.weight_rename ρ
  rw [unifyAll, unifyAll, Bindings.weight_rename, hweight, hweight]
  exact unifyEach_rename ρ (unifyWithin_rename ρ _) ls rs b

/-! ## Expressions -/

theorem toOption_map {ε α β : Type} (x : Except ε α) (f : α → β) :
    (x.map f).toOption = x.toOption.map f := by
  cases x <;> rfl

theorem toOption_bind {ε α β : Type} (x : Except ε α) (f : α → Except ε β) :
    (x.bind f).toOption = x.toOption.bind fun a => (f a).toOption := by
  cases x <;> rfl

namespace Expr

theorem eval_rename_var (ρ : Relabelling) (b : Bindings) (x : String) :
    ((var (ρ x)).eval (b.rename ρ)).toOption = ((var x).eval b).toOption := by
  rw [eval, eval, ← Term.rename_var, Bindings.resolve_rename]
  cases b.resolve (.var x) <;> rfl

/-- A renamed expression has the same value, or none if there is none; what is told about a missing
value may differ. -/
theorem eval_rename (ρ : Relabelling) (b : Bindings) (e : Expr) :
    ((e.rename ρ).eval (b.rename ρ)).toOption = (e.eval b).toOption := by
  induction e with
  | num n => rfl
  | var x => exact eval_rename_var ρ b x
  | neg e ih => rw [rename, eval, eval, toOption_bind, toOption_bind, ih]
  | binary op left right ihl ihr =>
    simp only [rename, eval, bind, toOption_bind, ihl, ihr]
  | call f args ih =>
    have hargs : (evalAll (b.rename ρ) (renameAll ρ args)).toOption =
        (evalAll b args).toOption := by
      induction args with
      | nil => rfl
      | cons e rest ihrest =>
        obtain ⟨he, hrest⟩ := List.forall_mem_cons.1 ih
        simp only [renameAll, evalAll, bind, toOption_bind, he, ihrest hrest]
    rw [rename, eval, eval, toOption_bind, toOption_bind, hargs]

end Expr

/-! ## Renaming twice -/

section

variable {f g : String → String} (h : ∀ x, ρ (f x) = g x)

include h

theorem Term.rename_rename (t : Term) : (t.rename f).rename ρ = t.rename g := by
  rw [Term.rename_eq_subst, Term.rename, Term.subst_subst]
  refine Term.subst_congr t fun x _ => ?_
  rw [Term.subst_var]
  split
  next hx => rw [hx, ρ.anonymous]
  next => rw [h]

theorem Expr.rename_rename (e : Expr) : (e.rename f).rename ρ = e.rename g := by
  induction e with
  | num n => rfl
  | var x => exact congrArg Expr.var (h x)
  | neg e ih => exact congrArg Expr.neg ih
  | binary op left right ihl ihr => simp only [Expr.rename, ihl, ihr]
  | call k args ih =>
    simp only [Expr.rename, Expr.renameAll_eq_map, List.map_map]
    exact congrArg (Expr.call k) (List.map_congr_left ih)

theorem Term.renameAll_rename (ts : List Term) :
    (Term.renameAll f ts).map (Term.rename ρ) = Term.renameAll g ts := by
  rw [Term.renameAll_eq_map, Term.renameAll_eq_map, List.map_map]
  exact List.map_congr_left fun t _ => t.rename_rename h

theorem Goal.rename_rename (k : Goal) : (k.rename f).rename ρ = k.rename g := by
  cases k with
  | call name args =>
    rw [Goal.rename, Goal.rename, Goal.rename, Term.renameAll_eq_map ρ, Term.renameAll_rename h]
  | _ => simp only [Goal.rename, Term.rename_rename h, Expr.rename_rename h]

end

theorem Expr.rename_eq_self {f : String → String} (e : Expr) (h : ∀ x ∈ e.variableNames, f x = x) :
    e.rename f = e := by
  induction e with
  | num n => rfl
  | var x => exact congrArg Expr.var (h x (by simp))
  | neg e ih => exact congrArg Expr.neg (ih h)
  | binary op left right ihl ihr =>
    rw [Expr.rename, ihl fun x hx => h x (Expr.mem_variableNames_binary.2 (Or.inl hx)),
      ihr fun x hx => h x (Expr.mem_variableNames_binary.2 (Or.inr hx))]
  | call k args ih =>
    rw [Expr.rename, Expr.renameAll_eq_map]
    refine congrArg (Expr.call k) ((List.map_congr_left fun e he => ?_).trans (List.map_id' args))
    exact ih e he fun x hx => h x (Expr.mem_variableNames_call.2 ⟨e, he, hx⟩)

/-- A goal is not changed if its variables keep their names. -/
theorem Goal.rename_eq_self {f : String → String} {g : Goal} (h : g.Over fun x => f x = x) :
    g.rename f = g := by
  have hterm : ∀ t ∈ g.terms, t.rename f = t := fun t ht => t.rename_eq_self (h.terms t ht)
  have hexpr : ∀ e ∈ g.exprs, e.rename f = e := fun e he => e.rename_eq_self (h.exprs e he)
  cases g with
  | call name args =>
    rw [Goal.rename, Term.renameAll_eq_map]
    exact congrArg (Goal.call name) ((List.map_congr_left hterm).trans (List.map_id' args))
  | _ => simp_all [Goal.rename, Goal.terms, Goal.exprs]

end StackLogic.Horn
