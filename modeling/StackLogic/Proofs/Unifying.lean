import StackLogic.Proofs.Loops

/-!
# What unification does

`Unifying` describes unification step by step, without any bound on its recursion: a derivation is a
run that ends, with the extended bindings or with `none`. Everything about unification is proved by
induction over such runs.

* A run keeps bindings well formed and changes no binding that is there (`Unifying.wellFormed`).
* A run binds variables and terms that are parts of the given ones (`Unifying.all`).
* For plain terms, every substitution that satisfies the extended bindings makes both sides equal
  (`Unifying.solvedBy`), and every substitution that satisfies the given bindings and makes both sides
  equal satisfies the extended ones (`Unifying.exists_of_solvedBy`): the bindings commit to no more
  than is needed.
-/

namespace StackLogic.Horn

namespace Bindings

variable {b b' : Bindings} {x : String} {t u : Term} {σ : String → Term}

/-! ## Substitutions that satisfy bindings -/

/-- The substitution gives to each bound variable what it gives to its value. -/
def SatisfiedBy (b : Bindings) (σ : String → Term) : Prop :=
  ∀ x t, b.get? x = some t → σ x = t.subst σ

theorem satisfiedBy_empty (σ : String → Term) : empty.SatisfiedBy σ := by
  intro x t h
  simp at h

/-- A substitution that satisfies bindings satisfies fewer of them. -/
theorem SatisfiedBy.of_extends (h : b'.SatisfiedBy σ) (he : b.Extends b') : b.SatisfiedBy σ :=
  fun x t hx => h x t (he x t hx)

/-- A substitution satisfies one more binding if it solves the new equation. -/
theorem SatisfiedBy.extend (h : b.SatisfiedBy σ) (hx : σ x = t.subst σ) :
    (b.extend x t).SatisfiedBy σ := by
  intro y u hy
  rw [get?_extend] at hy
  split at hy
  next hyx =>
    cases hy
    rw [hyx, hx]
  next => exact h y u hy

/-- Expanding a term does not change its instances under a substitution that satisfies the bindings.
-/
theorem SatisfiedBy.subst_expand (h : b.SatisfiedBy σ) (n : Nat) (t : Term) :
    (b.expand n t).subst σ = t.subst σ := by
  induction n generalizing t with
  | zero => rfl
  | succ n ih =>
    rw [expand, Term.subst_subst]
    refine Term.subst_congr t fun x _ => ?_
    cases hg : b.get? x with
    | none => rfl
    | some u => exact (ih u).trans (h x u hg).symm

/-- What a term stands for has the same instances. -/
theorem SatisfiedBy.subst_resolveDeep (h : b.SatisfiedBy σ) (t : Term) :
    (b.resolveDeep t).subst σ = t.subst σ :=
  h.subst_expand b.weight t

theorem Resolves.subst_eq (hr : Resolves b t u) (h : b.SatisfiedBy σ) : u.subst σ = t.subst σ := by
  induction hr with
  | bound hg _ ih => rw [ih, Term.subst_var, h _ _ hg]
  | free | value => rfl

/-! ## Properties of all terms in bindings -/

/-- All bound variables and their values have the property. -/
def All (Q : Term → Prop) (b : Bindings) : Prop :=
  ∀ x t, b.get? x = some t → Q (.var x) ∧ Q t

theorem all_empty (Q : Term → Prop) : empty.All Q := by
  intro x t h
  simp at h

variable {Q : Term → Prop}

/-- A property of all terms in the bindings is kept by a binding of terms that have it. -/
theorem All.extend (hb : b.All Q) (hx : Q (.var x)) (ht : Q t) : (b.extend x t).All Q := by
  intro y u hy
  rw [get?_extend] at hy
  split at hy
  next hyx =>
    cases hy
    exact ⟨hyx ▸ hx, ht⟩
  next => exact hb y u hy

/-- What a term resolves to is the term or is in the bindings. -/
theorem All.of_resolves (hb : b.All Q) (hr : Resolves b t u) (ht : Q t) : Q u := by
  induction hr with
  | bound hg _ ih => exact ih (hb _ _ hg).2
  | free | value => exact ht

end Bindings

open Bindings

/-! ## Runs of unification -/

/-- One side resolves to a free variable, the other one to the term it is to be bound to. Of two
variables the left one is bound. -/
inductive Meets (b : Bindings) (left right : Term) (x : String) (t : Term) : Prop where
  | left (hl : Resolves b left (.var x)) (hr : Resolves b right t) (ht : t ≠ .var x) :
      Meets b left right x t
  | right (hl : Resolves b left t) (hr : Resolves b right (.var x)) (ht : ∀ y, t ≠ .var y) :
      Meets b left right x t

/-- What is to be unified. -/
inductive Problem where
  | pair (left right : Term)
  /-- Two lists of the same length, element by element. -/
  | each (lefts rights : List Term)

/-- Neither term is the anonymous variable. -/
def BothNamed (left right : Term) : Prop := left.isAnonymous = false ∧ right.isAnonymous = false

/-- Unifying ends with this result, which is `none` if there is a clash. -/
inductive Unifying : Problem → Bindings → Option Bindings → Prop where
  | anonymous {left right : Term} {b : Bindings} (h : ¬ BothNamed left right) :
      Unifying (.pair left right) b (some b)
  | same {left right : Term} {b : Bindings} {x : String} (hn : BothNamed left right)
      (hl : Resolves b left (.var x)) (hr : Resolves b right (.var x)) :
      Unifying (.pair left right) b (some b)
  | bind {left right : Term} {b : Bindings} {x : String} {t : Term} (hn : BothNamed left right)
      (hm : Meets b left right x t) (ho : Occurs b x t false) :
      Unifying (.pair left right) b (some (b.extend x t))
  | occursCheck {left right : Term} {b : Bindings} {x : String} {t : Term}
      (hn : BothNamed left right) (hm : Meets b left right x t) (ho : Occurs b x t true) :
      Unifying (.pair left right) b none
  | lists {left right : Term} {b : Bindings} {xs ys : List Term} {result : Option Bindings}
      (hn : BothNamed left right) (hl : Resolves b left (.list xs))
      (hr : Resolves b right (.list ys)) (hlen : xs.length = ys.length)
      (elements : Unifying (.each xs ys) b result) : Unifying (.pair left right) b result
  | lengths {left right : Term} {b : Bindings} {xs ys : List Term} (hn : BothNamed left right)
      (hl : Resolves b left (.list xs)) (hr : Resolves b right (.list ys))
      (hlen : xs.length ≠ ys.length) : Unifying (.pair left right) b none
  /-- Two terms that are no variables and not both lists. -/
  | constants {left right s t : Term} {b : Bindings} (hn : BothNamed left right)
      (hl : Resolves b left s) (hr : Resolves b right t) (hs : ∀ x, s ≠ .var x)
      (ht : ∀ x, t ≠ .var x) (hst : ∀ xs ys, s = .list xs → t ≠ .list ys) :
      Unifying (.pair left right) b (if s.sameConstant t then some b else none)
  | done {b : Bindings} : Unifying (.each [] []) b (some b)
  | next {x y : Term} {xs ys : List Term} {b b' : Bindings} {result : Option Bindings}
      (first : Unifying (.pair x y) b (some b')) (rest : Unifying (.each xs ys) b' result) :
      Unifying (.each (x :: xs) (y :: ys)) b result
  | stop {x y : Term} {xs ys : List Term} {b : Bindings} (first : Unifying (.pair x y) b none) :
      Unifying (.each (x :: xs) (y :: ys)) b none

variable {b b' : Bindings} {left right t : Term} {x : String} {σ : String → Term}
  {Q : Term → Prop} {p : Problem} {result : Option Bindings}

namespace Meets

theorem get?_eq_none (h : Meets b left right x t) : b.get? x = none := by
  cases h with
  | left hl => exact hl.get?_eq_none
  | right _ hr => exact hr.get?_eq_none

theorem ne_var (h : Meets b left right x t) : t ≠ .var x := by
  cases h with
  | left _ _ ht => exact ht
  | right _ _ ht => exact ht x

/-- The term of the new binding is resolved already. -/
theorem resolves_self (h : Meets b left right x t) : Resolves b t t := by
  cases h with
  | left _ hr => exact hr.resolves_self
  | right hl => exact hl.resolves_self

/-- The term is not the variable when bound variables are replaced. -/
theorem resolveDeep_ne (h : Meets b left right x t) : b.resolveDeep t ≠ .var x := by
  intro heq
  cases ht : t with
  | var y =>
    have hy := h.resolves_self
    rw [ht] at hy heq
    rw [resolveDeep_free hy.get?_eq_none] at heq
    exact h.ne_var (ht.trans heq)
  | list items => rw [ht, resolveDeep_list] at heq; cases heq
  | atom | num | str => rw [ht, resolveDeep_eq_subst] at heq; cases heq

/-- `_` is on neither side of a new binding, as terms with that name are never met. -/
theorem ne_anonymous (h : Meets b left right x t) (hb : b.WellFormed)
    (hn : BothNamed left right) : x ≠ Term.anonymousName ∧ t ≠ .var Term.anonymousName := by
  have hleft := Term.isAnonymous_eq_false.1 hn.1
  have hright := Term.isAnonymous_eq_false.1 hn.2
  cases h with
  | left hl hr =>
    refine ⟨fun hx => hl.ne_anonymous hb hleft (congrArg Term.var hx), ?_⟩
    exact hr.ne_anonymous hb hright
  | right hl hr =>
    refine ⟨fun hx => hr.ne_anonymous hb hright (congrArg Term.var hx), ?_⟩
    exact hl.ne_anonymous hb hleft

/-- Both sides of a new binding come from the two terms or from the bindings. -/
theorem all (h : Meets b left right x t) (hb : b.All Q) (hl : Q left) (hr : Q right) :
    Q (.var x) ∧ Q t := by
  cases h with
  | left hxl htr => exact ⟨hb.of_resolves hxl hl, hb.of_resolves htr hr⟩
  | right htl hxr => exact ⟨hb.of_resolves hxr hr, hb.of_resolves htl hl⟩

/-- Under a substitution that satisfies the bindings, the two sides are equal exactly if the
variable and the term are. -/
theorem subst_eq_iff (h : Meets b left right x t) (hσ : b.SatisfiedBy σ) :
    left.subst σ = right.subst σ ↔ σ x = t.subst σ := by
  cases h with
  | left hl hr =>
    rw [← hl.subst_eq hσ, ← hr.subst_eq hσ]
    rfl
  | right hl hr =>
    rw [← hl.subst_eq hσ, ← hr.subst_eq hσ]
    exact eq_comm

end Meets

namespace Problem

/-- All terms of the problem have the property. -/
def All (Q : Term → Prop) : Problem → Prop
  | pair left right => Q left ∧ Q right
  | each lefts rights => (∀ t ∈ lefts, Q t) ∧ ∀ t ∈ rights, Q t

/-- The substitution makes both sides equal. -/
def SolvedBy (σ : String → Term) : Problem → Prop
  | pair left right => left.subst σ = right.subst σ
  | each lefts rights => lefts.map (Term.subst σ) = rights.map (Term.subst σ)

end Problem

namespace Unifying

/-- Unification keeps bindings well formed and changes no binding that is there. -/
theorem wellFormed (h : Unifying p b result) (hb : b.WellFormed) (hr : result = some b') :
    b'.WellFormed ∧ b.Extends b' := by
  induction h generalizing b' with
  | anonymous | same | done =>
    cases hr
    exact ⟨hb, Extends.refl _⟩
  | bind hn hm ho =>
    cases hr
    obtain ⟨hx, ht⟩ := hm.ne_anonymous hb hn
    have hfree := hm.get?_eq_none
    refine ⟨hb.extend hfree hx ht fun hmem => ?_, extends_extend hfree _⟩
    exact absurd ((ho.eq_true_iff hb).2 hmem) (by simp)
  | occursCheck | lengths | stop => cases hr
  | lists _ _ _ _ _ ih => exact ih hb hr
  | constants =>
    split at hr
    · cases hr
      exact ⟨hb, Extends.refl _⟩
    · cases hr
  | next _ _ ih₁ ih₂ =>
    obtain ⟨hb₁, he₁⟩ := ih₁ hb rfl
    obtain ⟨hb₂, he₂⟩ := ih₂ hb₁ hr
    exact ⟨hb₂, he₁.trans he₂⟩

/-- Unification binds only parts of what it is given. -/
theorem all (h : Unifying p b result) (hQ : Term.Hereditary Q) (hp : p.All Q) (hb : b.All Q)
    (hr : result = some b') : b'.All Q := by
  induction h generalizing b' with
  | anonymous | same | done =>
    cases hr
    exact hb
  | bind _ hm _ =>
    cases hr
    obtain ⟨hx, ht⟩ := hm.all hb hp.1 hp.2
    exact hb.extend hx ht
  | occursCheck | lengths | stop => cases hr
  | lists _ hl hr' _ _ ih =>
    exact ih ⟨hQ (hb.of_resolves hl hp.1), hQ (hb.of_resolves hr' hp.2)⟩ hb hr
  | constants =>
    split at hr
    · cases hr
      exact hb
    · cases hr
  | next _ _ ih₁ ih₂ =>
    obtain ⟨⟨hx, hxs⟩, ⟨hy, hys⟩⟩ := And.imp List.forall_mem_cons.1 List.forall_mem_cons.1 hp
    exact ih₂ ⟨hxs, hys⟩ (ih₁ ⟨hx, hy⟩ hb rfl) hr

end Unifying

/-! ## Most general unifiers -/

/-- Constants that count as the same are the same, unless floating-point numbers are involved. -/
theorem Term.Plain.sameConstant_iff {s t : Term} (hs : s.Plain) (ht : t.Plain)
    (hsv : ∀ x, s ≠ .var x) (htv : ∀ x, t ≠ .var x) (hst : ∀ xs ys, s = .list xs → t ≠ .list ys) :
    s.sameConstant t = true ↔ s.subst σ = t.subst σ := by
  cases hs with
  | var => exact absurd rfl (hsv _)
  | list =>
    cases ht with
    | var => exact absurd rfl (htv _)
    | list => exact absurd rfl (hst _ _ rfl)
    | _ => simp [Term.sameConstant]
  | _ =>
    cases ht with
    | var => exact absurd rfl (htv _)
    | _ => simp [Term.sameConstant, Number.sameValue]

namespace Unifying

/-- If unification of plain terms succeeds, the bindings make both sides equal. -/
theorem solvedBy (h : Unifying p b result) (hp : p.All Term.Plain) (hb : b.WellFormed)
    (hplain : b.All Term.Plain) (hr : result = some b') (hσ : b'.SatisfiedBy σ) :
    p.SolvedBy σ := by
  induction h generalizing b' with
  | anonymous hn => exact absurd ⟨hp.1.isAnonymous, hp.2.isAnonymous⟩ hn
  | same _ hl hr' =>
    cases hr
    exact (hl.subst_eq hσ).symm.trans (hr'.subst_eq hσ)
  | @bind _ _ b x t _ hm _ =>
    cases hr
    have hfree := hm.get?_eq_none
    refine (hm.subst_eq_iff (hσ.of_extends (extends_extend hfree t))).2 (hσ x t ?_)
    rw [get?_extend, if_pos rfl]
  | occursCheck | lengths | stop => cases hr
  | lists _ hl hr' hlen elements ih =>
    have hxs := Term.hereditary_plain (hplain.of_resolves hl hp.1)
    have hys := Term.hereditary_plain (hplain.of_resolves hr' hp.2)
    have he := (elements.wellFormed hb hr).2
    have hsolved := ih ⟨hxs, hys⟩ hb hplain hr hσ
    have hσb := hσ.of_extends he
    show _ = _
    rw [← hl.subst_eq hσb, ← hr'.subst_eq hσb, Term.subst_list, Term.subst_list]
    exact congrArg Term.list hsolved
  | constants _ hl hr' hs ht hst =>
    split at hr
    next hsame =>
      cases hr
      have hpl := hplain.of_resolves hl hp.1
      have hpr := hplain.of_resolves hr' hp.2
      show _ = _
      rw [← hl.subst_eq hσ, ← hr'.subst_eq hσ]
      exact (hpl.sameConstant_iff hpr hs ht hst).1 hsame
    next => cases hr
  | done => rfl
  | next first rest ih₁ ih₂ =>
    obtain ⟨⟨hx, hxs⟩, ⟨hy, hys⟩⟩ := And.imp List.forall_mem_cons.1 List.forall_mem_cons.1 hp
    have hb₁ := (first.wellFormed hb rfl).1
    have hplain₁ := first.all Term.hereditary_plain ⟨hx, hy⟩ hplain rfl
    have he := (rest.wellFormed hb₁ hr).2
    have h₁ := ih₁ ⟨hx, hy⟩ hb hplain rfl (hσ.of_extends he)
    have h₂ := ih₂ ⟨hxs, hys⟩ hb₁ hplain₁ hr hσ
    exact List.cons_eq_cons.2 ⟨h₁, h₂⟩

/-- Unification of plain terms succeeds if some substitution that satisfies the bindings makes both
sides equal, and the substitution satisfies the extended bindings too. -/
theorem exists_of_solvedBy (h : Unifying p b result) (hp : p.All Term.Plain) (hb : b.WellFormed)
    (hplain : b.All Term.Plain) (hσ : b.SatisfiedBy σ) (hsolved : p.SolvedBy σ) :
    ∃ b', result = some b' ∧ b'.SatisfiedBy σ := by
  induction h with
  | anonymous | same | done => exact ⟨_, rfl, hσ⟩
  | bind _ hm _ => exact ⟨_, rfl, hσ.extend ((hm.subst_eq_iff hσ).1 hsolved)⟩
  | @occursCheck _ _ b x t _ hm ho =>
    -- the variable would stand for a proper part of itself
    have hmem : x ∈ (b.resolveDeep t).variableNames := (ho.eq_true_iff hb).1 rfl
    have hlt := Term.weight_lt_of_mem σ _ hmem hm.resolveDeep_ne
    rw [hσ.subst_resolveDeep, ← (hm.subst_eq_iff hσ).1 hsolved] at hlt
    exact absurd hlt (Nat.lt_irrefl _)
  | lists _ hl hr hlen _ ih =>
    have hxs := Term.hereditary_plain (hplain.of_resolves hl hp.1)
    have hys := Term.hereditary_plain (hplain.of_resolves hr hp.2)
    refine ih ⟨hxs, hys⟩ hb hplain hσ ?_
    have heq : (Term.list _).subst σ = (Term.list _).subst σ :=
      (hl.subst_eq hσ).trans (Eq.trans hsolved (hr.subst_eq hσ).symm)
    rw [Term.subst_list, Term.subst_list] at heq
    exact Term.list.inj heq
  | lengths _ hl hr hlen =>
    have heq : (Term.list _).subst σ = (Term.list _).subst σ :=
      (hl.subst_eq hσ).trans (Eq.trans hsolved (hr.subst_eq hσ).symm)
    rw [Term.subst_list, Term.subst_list] at heq
    have hlens := congrArg List.length (Term.list.inj heq)
    rw [List.length_map, List.length_map] at hlens
    exact absurd hlens hlen
  | constants _ hl hr hs ht hst =>
    have hpl := hplain.of_resolves hl hp.1
    have hpr := hplain.of_resolves hr hp.2
    have heq := (hl.subst_eq hσ).trans (Eq.trans hsolved (hr.subst_eq hσ).symm)
    rw [if_pos ((hpl.sameConstant_iff hpr hs ht hst).2 heq)]
    exact ⟨_, rfl, hσ⟩
  | next first _ ih₁ ih₂ =>
    obtain ⟨⟨hx, hxs⟩, ⟨hy, hys⟩⟩ := And.imp List.forall_mem_cons.1 List.forall_mem_cons.1 hp
    obtain ⟨h₁, h₂⟩ := List.cons_eq_cons.1 hsolved
    obtain ⟨b₁, hb₁eq, hσ₁⟩ := ih₁ ⟨hx, hy⟩ hb hplain hσ h₁
    cases hb₁eq
    have hplain₁ := first.all Term.hereditary_plain ⟨hx, hy⟩ hplain rfl
    exact ih₂ ⟨hxs, hys⟩ (first.wellFormed hb rfl).1 hplain₁ hσ₁ h₂
  | stop _ ih =>
    obtain ⟨⟨hx, _⟩, ⟨hy, _⟩⟩ := And.imp List.forall_mem_cons.1 List.forall_mem_cons.1 hp
    obtain ⟨_, habsurd, _⟩ := ih ⟨hx, hy⟩ hb hplain hσ (List.cons_eq_cons.1 hsolved).1
    cases habsurd

end Unifying

end StackLogic.Horn
