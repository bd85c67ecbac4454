import StackLogic.Proofs.Answers

/-!
# Derivable goals

The clauses of a database define which instances of goals are derivable, with no search in the
definition. `Derivable d σ g` says so for the instance of the goal `g` under the substitution `σ`: a
call is derivable if some clause has an instance with the same arguments and a derivable body.

Statements about it are for goals and clauses without `_` and without floating-point numbers. The
goals with an effect and the arithmetic ones are left out as well: they have no meaning that depends
on the clauses alone.
-/

namespace StackLogic.Horn

open Bindings

/-! ## Goals and clauses of the logical part of the language -/

/-- `true`, `fail`, `=` and calls, over plain terms. -/
def Goal.Definite : Goal → Prop
  | .succeed | .fail => True
  | .unify left right => left.Plain ∧ right.Plain
  | .call _ args => ∀ t ∈ args, t.Plain
  | _ => False

/-- The same with `!` and `member`. -/
def Goal.Logical : Goal → Prop
  | .cut => True
  | .member element list => element.Plain ∧ list.Plain
  | g => g.Definite

theorem Goal.Definite.logical {g : Goal} (hg : g.Definite) : g.Logical := by
  cases g with
  | succeed | fail | unify | call => exact hg
  | _ => exact absurd hg id

/-- The head is plain, and every goal of the body can be read and is of this kind. -/
def Clause.Consists (kind : Goal → Prop) (c : Clause) : Prop :=
  (∀ t ∈ c.args, t.Plain) ∧ ∀ part ∈ c.body, ∃ g, part.goal = .ok g ∧ kind g

/-- All clauses consist of goals of this kind. -/
def Database.Consists (kind : Goal → Prop) (d : Database) : Prop :=
  ∀ name, ∀ clause ∈ d.clauses name, clause.Consists kind

theorem Clause.Consists.logical {c : Clause} (hc : c.Consists Goal.Definite) :
    c.Consists Goal.Logical := by
  refine ⟨hc.1, fun part hpart => ?_⟩
  obtain ⟨g, hg, hdefinite⟩ := hc.2 part hpart
  exact ⟨g, hg, hdefinite.logical⟩

theorem Database.Consists.logical {d : Database} (hd : d.Consists Goal.Definite) :
    d.Consists Goal.Logical :=
  fun name clause hc => (hd name clause hc).logical

theorem Clause.consists_fact {kind : Goal → Prop} {args : List Term}
    (hargs : ∀ t ∈ args, t.Plain) : (fact args).Consists kind :=
  ⟨hargs, by simp [body]⟩

theorem sample_consists {kind : Goal → Prop} (hq : kind (.call "q" [.var "X"]))
    {more : List BodyGoal} (hmore : ∀ part ∈ more, ∃ g, part.goal = .ok g ∧ kind g) :
    (sample more).database.Consists kind := by
  intro name clause hc
  have hatom : ∀ a, (Clause.fact [.atom a]).Consists kind :=
    fun a => Clause.consists_fact (by simpa using Term.Plain.atom)
  simp only [sample, Database.clauses, List.lookup_cons, List.lookup_nil] at hc
  split at hc
  · rcases List.mem_pair.1 hc with rfl | rfl
    · exact hatom "a"
    · exact hatom "b"
  · split at hc
    · rcases List.mem_pair.1 hc with rfl | rfl
      · refine ⟨by simpa [Clause.args] using Term.Plain.var (by decide), ?_⟩
        exact List.forall_mem_cons.2 ⟨⟨_, rfl, hq⟩, hmore⟩
      · exact hatom "c"
    · cases hc

/-- Bindings that come about by unification of plain terms, starting with none. -/
inductive Bindings.Reachable : Bindings → Prop where
  | empty : Reachable .empty
  | unify {b b' : Bindings} {left right : Term} (hb : Reachable b) (hl : left.Plain)
      (hr : right.Plain) (hu : unify left right b = some b') : Reachable b'
  | unifyAll {b b' : Bindings} {lefts rights : List Term} (hb : Reachable b)
      (hl : ∀ t ∈ lefts, t.Plain) (hr : ∀ t ∈ rights, t.Plain)
      (hu : unifyAll lefts rights b = some b') : Reachable b'

theorem Bindings.Reachable.wellFormed {b : Bindings} (h : b.Reachable) : b.WellFormed := by
  induction h with
  | empty => exact wellFormed_empty
  | unify _ _ _ hu ih => exact (unify_wellFormed ih hu).1
  | unifyAll _ _ _ hu ih => exact (unifyAll_wellFormed ih hu).1

theorem Bindings.Reachable.plain {b : Bindings} (h : b.Reachable) : b.All Term.Plain := by
  induction h with
  | empty => exact all_empty _
  | @unify _ _ left right hb hl hr hu ih =>
    exact (unifying_unify hb.wellFormed left right).all Term.hereditary_plain ⟨hl, hr⟩ ih hu
  | unifyAll hb hl hr hu ih =>
    exact (unifying_of_unifyAll hb.wellFormed hu).all Term.hereditary_plain ⟨hl, hr⟩ ih rfl

/-! ## Derivable instances -/

/-- The instance of the goal under the substitution is derivable from the clauses. -/
inductive Derivable (d : Database) : (String → Term) → Goal → Prop where
  | succeed {σ : String → Term} : Derivable d σ .succeed
  | cut {σ : String → Term} : Derivable d σ .cut
  | unify {σ : String → Term} {left right : Term} (h : left.subst σ = right.subst σ) :
      Derivable d σ (.unify left right)
  | member {σ : String → Term} {element list : Term} {items : List Term}
      (hl : list.subst σ = .list items) (h : element.subst σ ∈ items) :
      Derivable d σ (.member element list)
  /-- The clause is instantiated by `τ`. -/
  | call {σ τ : String → Term} {name : String} {args : List Term} {clause : Clause}
      {goals : List Goal} (hc : clause ∈ d.clauses name)
      (hargs : args.map (Term.subst σ) = clause.args.map (Term.subst τ))
      (hgoals : clause.body.map BodyGoal.goal = goals.map .ok)
      (hbody : ∀ g ∈ goals, Derivable d τ g) : Derivable d σ (.call name args)

variable {d : Database} {σ τ : String → Term} {f : String → String} {g : Goal}
  {left right element list : Term} {name : String} {args : List Term}

theorem not_derivable_fail : ¬ Derivable d σ .fail := by
  rintro ⟨⟩

theorem derivable_unify : Derivable d σ (.unify left right) ↔ left.subst σ = right.subst σ := by
  refine ⟨fun h => ?_, .unify⟩
  cases h with
  | unify h => exact h

/-- Membership is derivable where the instance is in the list. -/
theorem derivable_member : Derivable d σ (.member element list) ↔
    ∃ items, list.subst σ = .list items ∧ element.subst σ ∈ items := by
  refine ⟨fun h => ?_, fun ⟨_, hl, h⟩ => .member hl h⟩
  cases h with
  | member hl h => exact ⟨_, hl, h⟩

/-- A call is derivable through a clause whose head has the same instance and whose body is
derivable. -/
theorem derivable_call : Derivable d σ (.call name args) ↔
    ∃ clause ∈ d.clauses name, ∃ (τ : String → Term) (goals : List Goal),
      args.map (Term.subst σ) = clause.args.map (Term.subst τ) ∧
      clause.body.map BodyGoal.goal = goals.map .ok ∧ ∀ g ∈ goals, Derivable d τ g := by
  refine ⟨fun h => ?_, fun ⟨_, hc, _, _, hargs, hgoals, hbody⟩ => .call hc hargs hgoals hbody⟩
  cases h with
  | call hc hargs hgoals hbody => exact ⟨_, hc, _, _, hargs, hgoals, hbody⟩

theorem Term.map_subst_renameAll (ts : List Term) :
    (Term.renameAll f ts).map (Term.subst σ) =
      ts.map (Term.subst fun x => σ (Term.renamedName f x)) := by
  rw [Term.renameAll_eq_map, List.map_map]
  exact List.map_congr_left fun t _ => t.rename_subst f σ

/-- The instances of a renamed goal are instances of the goal. -/
theorem derivable_rename (hg : g.Logical) :
    Derivable d σ (g.rename f) ↔ Derivable d (fun x => σ (Term.renamedName f x)) g := by
  cases g with
  | succeed => exact ⟨fun _ => .succeed, fun _ => .succeed⟩
  | fail => exact iff_of_false not_derivable_fail not_derivable_fail
  | cut => exact ⟨fun _ => .cut, fun _ => .cut⟩
  | unify left right =>
    rw [Goal.rename, derivable_unify, derivable_unify, Term.rename_subst, Term.rename_subst]
  | member element list =>
    rw [Goal.rename, derivable_member, derivable_member, Term.rename_subst, Term.rename_subst]
  | call name args =>
    rw [Goal.rename, derivable_call, derivable_call, Term.map_subst_renameAll]
  | newline | write | notUnify | is | compare => exact absurd hg id

/-! ## Bodies -/

theorem instantiate_cons (k : Nat) (part : BodyGoal) (rest : List BodyGoal) :
    instantiate k (part :: rest) =
      match part.goal with
      | .ok g => (instantiate k rest).map (g.rename (Term.freshName k) :: ·)
      | .error e => .error (.malformed (.unreadable e) part.text) := by
  rw [instantiate, List.mapM_cons]
  cases part.goal with
  | error e => rfl
  | ok g => rw [instantiate]; rfl

/-- The goals of a body are the goals that were read, renamed. -/
theorem exists_read_of_instantiate {k : Nat} {body : List BodyGoal} {goals : List Goal}
    (h : instantiate k body = .ok goals) :
    ∃ read : List Goal, body.map BodyGoal.goal = read.map .ok ∧
      goals = read.map (Goal.rename (Term.freshName k)) := by
  induction body generalizing goals with
  | nil =>
    cases h
    exact ⟨[], rfl, rfl⟩
  | cons part rest ih =>
    rw [instantiate_cons] at h
    cases hpart : part.goal with
    | error e => simp [hpart] at h
    | ok g =>
      cases hrest : instantiate k rest with
      | error e => simp [hpart, hrest, Except.map] at h
      | ok gs =>
        obtain ⟨read, hread, rfl⟩ := ih hrest
        refine ⟨g :: read, by simp [hpart, hread], ?_⟩
        simpa [hpart, hrest, Except.map, eq_comm] using h

theorem Clause.Consists.kind_of_read {kind : Goal → Prop} {c : Clause} (hc : c.Consists kind)
    {read : List Goal} (hread : c.body.map BodyGoal.goal = read.map .ok) :
    ∀ g ∈ read, kind g := by
  intro g hg
  have hmem : (Except.ok g : Except ReadError Goal) ∈ c.body.map BodyGoal.goal := by
    rw [hread]
    exact List.mem_map_of_mem hg
  obtain ⟨part, hpart, heq⟩ := List.mem_map.1 hmem
  obtain ⟨g', hg', hkind⟩ := hc.2 part hpart
  rw [heq] at hg'
  cases hg'
  exact hkind

/-! ## Properties that answers inherit -/

/-- The terms of a goal. -/
def Goal.terms : Goal → List Term
  | .write t => [t]
  | .member a c | .unify a c | .notUnify a c => [a, c]
  | .is t _ => [t]
  | .call _ args => args
  | _ => []

/-- The terms of a logical goal are plain. -/
theorem Goal.Logical.plain (hg : g.Logical) : ∀ t ∈ g.terms, t.Plain := by
  cases g with
  | member a c | unify a c =>
    intro t ht
    rcases List.mem_pair.1 ht with rfl | rfl
    · exact hg.1
    · exact hg.2
  | call name args => exact hg
  | succeed | fail | cut => simp [terms]
  | newline | write | notUnify | is | compare => exact absurd hg id

theorem Goal.Logical.mem_addVariables (hg : g.Logical) {x : String} (names : List String) :
    x ∈ g.addVariables names ↔ x ∈ names ∨ ∃ t ∈ g.terms, x ∈ t.variableNames := by
  cases g with
  | member a c | unify a c => simp [addVariables, terms, Term.mem_addVariables, or_assoc]
  | call name args =>
    rw [addVariables, Term.addVariablesAll_eq_foldl,
      Term.mem_foldl_names args fun t _ => Term.mem_addVariables t]
    rfl
  | succeed | fail | cut => simp [addVariables, terms]
  | newline | write | notUnify | is | compare => exact absurd hg id

theorem Goal.mem_variablesOf {goals : List Goal} (hg : ∀ g ∈ goals, g.Logical) {x : String} :
    x ∈ variablesOf goals ↔ ∃ g ∈ goals, ∃ t ∈ g.terms, x ∈ t.variableNames := by
  rw [variablesOf, Term.mem_foldl_names goals fun g hmem => (hg g hmem).mem_addVariables]
  simp

/-- Renaming a goal renames its terms. -/
theorem Goal.terms_rename (g : Goal) : (g.rename f).terms = g.terms.map (Term.rename f) := by
  cases g with
  | call name args => exact Term.renameAll_eq_map f args
  | _ => rfl

/-- Renaming keeps a goal logical. -/
theorem Goal.Logical.rename (hg : g.Logical) (k : Nat) :
    (g.rename (Term.freshName k)).Logical := by
  have hplain : ∀ t ∈ (g.rename (Term.freshName k)).terms, t.Plain := by
    rw [Goal.terms_rename]
    intro u hu
    obtain ⟨t, ht, rfl⟩ := List.mem_map.1 hu
    exact (hg.plain t ht).rename_freshName k
  cases g with
  | member a c | unify a c => exact ⟨hplain _ (by simp [Goal.rename, terms]),
      hplain _ (by simp [Goal.rename, terms])⟩
  | call name args => exact hplain
  | succeed | fail | cut => trivial
  | newline | write | notUnify | is | compare => exact absurd hg id

theorem Goal.Definite.rename (hg : g.Definite) (k : Nat) :
    (g.rename (Term.freshName k)).Definite := by
  have hlogical := hg.logical.rename k
  cases g with
  | succeed | fail | unify | call => exact hlogical
  | _ => exact absurd hg id

/-- A property that holds for all terms of a search if it holds for the ones it starts with: parts of
terms, terms with bound variables replaced and the terms of clauses that are renamed by a number up
to `m` have it. -/
structure Inherited (Q : Term → Prop) (m : Nat) : Prop where
  element : Term.Hereditary Q
  var : ∀ {t x}, Q t → x ∈ t.variableNames → Q (.var x)
  subst : ∀ {t f}, Q t → (∀ x ∈ t.variableNames, Q (f x)) → Q (t.subst f)
  renamed : ∀ {t : Term} {k}, t.Plain → k ≤ m → Q (t.rename (Term.freshName k))

theorem inherited_plain (m : Nat) : Inherited Term.Plain m where
  element := Term.hereditary_plain
  var ht hx := .var (ht.ne_anonymousName hx)
  subst ht hf := ht.subst hf
  renamed ht _ := ht.rename_freshName _

variable {b b' : Bindings} {Q : Term → Prop} {m : Nat} {goals : List Goal}

theorem Inherited.expand (hQ : Inherited Q m) (hb : b.All Q) (n : Nat) {t : Term} (ht : Q t) :
    Q (b.expand n t) := by
  induction n generalizing t with
  | zero => exact ht
  | succ n ih =>
    refine hQ.subst ht fun x hx => ?_
    cases hg : b.get? x with
    | none => exact hQ.var ht hx
    | some u => exact ih (hb x u hg).2

/-- What holds of a term and of all bound terms holds of what it stands for. -/
theorem Inherited.resolveDeep (hQ : Inherited Q m) (hb : b.All Q) {t : Term} (ht : Q t) :
    Q (b.resolveDeep t) :=
  hQ.expand hb b.weight ht

/-- What is unified when a clause is used. -/
theorem Inherited.call (hQ : Inherited Q m) (hb : b.All Q) {c : Clause} {kind : Goal → Prop}
    (hc : c.Consists kind) {k : Nat} (hk : k ≤ m) (hargs : ∀ t ∈ args, Q t) :
    Problem.All Q (.each (args.map b.resolveDeep)
      (Term.renameAll (Term.freshName k) c.args)) := by
  refine ⟨fun u hu => ?_, fun u hu => ?_⟩
  · obtain ⟨t, ht, rfl⟩ := List.mem_map.1 hu
    exact hQ.resolveDeep hb (hargs t ht)
  · rw [Term.renameAll_eq_map] at hu
    obtain ⟨t, ht, rfl⟩ := List.mem_map.1 hu
    exact hQ.renamed (hc.1 t ht) hk

/-- The goals of a clause that is used. -/
theorem Inherited.body (hQ : Inherited Q m) {c : Clause} (hc : c.Consists Goal.Logical) {k : Nat}
    (hk : k ≤ m) (hi : instantiate k c.body = .ok goals) :
    ∀ g ∈ goals, g.Logical ∧ ∀ t ∈ g.terms, Q t := by
  obtain ⟨read, hread, rfl⟩ := exists_read_of_instantiate hi
  intro g' hg'
  obtain ⟨g, hg, rfl⟩ := List.mem_map.1 hg'
  have hlogical := hc.kind_of_read hread g hg
  refine ⟨hlogical.rename k, fun u hu => ?_⟩
  rw [Goal.terms_rename] at hu
  obtain ⟨t, ht, rfl⟩ := List.mem_map.1 hu
  exact hQ.renamed (hlogical.plain t ht) hk

/-- The same for a search in this database for goals of this kind only, said by what is met on the
way: resolved arguments, values of expressions, heads and bodies of used clauses. -/
structure Kept (d : Database) (kind : Goal → Prop) (Q : Term → Prop) (m : Nat) : Prop where
  element : Term.Hereditary Q
  resolved : ∀ {b : Bindings} {t}, b.All Q → Q t → Q (b.resolveDeep t)
  number : ∀ {target e}, kind (.is target e) → ∀ n, Q (.num n)
  head : ∀ {name clause k}, clause ∈ d.clauses name → k ≤ m →
    ∀ t ∈ Term.renameAll (Term.freshName k) clause.args, Q t
  body : ∀ {name clause k goals}, clause ∈ d.clauses name → k ≤ m →
    instantiate k clause.body = .ok goals → ∀ g ∈ goals, kind g ∧ ∀ t ∈ g.terms, Q t

/-- Logical databases keep inherited properties of terms. -/
theorem Inherited.kept (hQ : Inherited Q m) (hd : d.Consists Goal.Logical) :
    Kept d Goal.Logical Q m where
  element := hQ.element
  resolved hb ht := hQ.resolveDeep hb ht
  number := False.elim
  head hc hk := by
    rw [Term.renameAll_eq_map]
    exact List.forall_mem_map.2 fun t ht => hQ.renamed ((hd _ _ hc).1 t ht) hk
  body hc hk hi := hQ.body (hd _ _ hc) hk hi

variable {kind : Goal → Prop}

/-- A goal that is settled in one step binds terms with the property only. -/
theorem Yields.all (h : Yields g b b') (hQ : Kept d kind Q m) (hg : kind g)
    (hterms : ∀ t ∈ g.terms, Q t) (hw : b.WellFormed) (hb : b.All Q) : b'.All Q := by
  cases h with
  | @member _ _ element list item items hl hi hu =>
    have hlist : Q (.list items) :=
      hb.of_resolves (hl ▸ hw.resolves_resolve list) (hterms list (by simp [Goal.terms]))
    have helement := hterms element (by simp [Goal.terms])
    exact (unifying_unify hw element item).all hQ.element ⟨helement, hQ.element hlist item hi⟩ hb hu
  | @unify _ _ left right hu =>
    exact (unifying_unify hw left right).all hQ.element
      ⟨hterms left (by simp [Goal.terms]), hterms right (by simp [Goal.terms])⟩ hb hu
  | @is _ _ target e n _ hu =>
    exact (unifying_unify hw target (.num n)).all hQ.element
      ⟨hterms target (by simp [Goal.terms]), hQ.number hg n⟩ hb hu
  | _ => exact hb

/-- Answers bind terms with the property only. -/
theorem Answers.all (h : Answers d m goals b b') (hQ : Kept d kind Q m)
    (hg : ∀ g ∈ goals, kind g ∧ ∀ t ∈ g.terms, Q t) (hw : b.WellFormed) (hb : b.All Q) :
    b'.All Q := by
  induction h with
  | nil => exact hb
  | builtin hy _ ih =>
    obtain ⟨⟨hkind, hterms⟩, hrest⟩ := List.forall_mem_cons.1 hg
    exact ih hrest (hy.wellFormed hw).1 (hy.all hQ hkind hterms hw hb)
  | @call name args _ _ b _ _ _ clause k hc hk hu hi hbody _ ihb ihr =>
    obtain ⟨⟨_, hargs⟩, hrest⟩ := List.forall_mem_cons.1 hg
    have hw₁ := (unifyAll_wellFormed hw hu).1
    have hvalues : ∀ t ∈ args.map b.resolveDeep, Q t :=
      List.forall_mem_map.2 fun t ht => hQ.resolved hb (hargs t ht)
    have hb₁ := (unifying_of_unifyAll hw hu).all hQ.element ⟨hvalues, hQ.head hc hk⟩ hb rfl
    have hb₂ := ihb (hQ.body hc hk hi) hw₁ hb₁
    exact ihr hrest (hbody.wellFormed hw₁).1 hb₂

end StackLogic.Horn
