import StackLogic.Proofs.Bindings

/-!
# Following bindings to the end

`Resolves`, `ResolvesDeep` and `Occurs` describe the loops that follow bindings, without any bound on
their rounds: a derivation is a run that ends, and there is none for a run that does not. Under
well-formed bindings each loop ends on every term, with the result that `resolve`, `resolveDeep` and
`occurs` compute.
-/

namespace StackLogic.Horn

namespace Bindings

variable {b b' : Bindings} {x y : String} {t u : Term}

/-- Following a variable from binding to binding ends at the second term. -/
inductive Resolves (b : Bindings) : Term → Term → Prop where
  /-- Another round: the variable is bound. -/
  | bound {x : String} {t u : Term} (h : b.get? x = some t) (next : Resolves b t u) :
      Resolves b (.var x) u
  /-- The end at a free variable. -/
  | free {x : String} (h : b.get? x = none) : Resolves b (.var x) (.var x)
  /-- The end at a term that is no variable. -/
  | value {t : Term} (h : ∀ x, t ≠ .var x) : Resolves b t t

/-- Resolving a term and, if it is a list, all elements one after the other ends with the second
term. -/
inductive ResolvesDeep (b : Bindings) : Term → Term → Prop where
  | list {t : Term} {items values : List Term} (h : Resolves b t (.list items))
      (elements : List.Forall₂ (ResolvesDeep b) items values) : ResolvesDeep b t (.list values)
  | other {t u : Term} (h : Resolves b t u) (hu : ∀ items, u ≠ .list items) : ResolvesDeep b t u

/-- Looking for a variable in a term, in lists element by element until it is found, ends with this
answer. -/
inductive Occurs (b : Bindings) (x : String) : Term → Bool → Prop where
  | free {t : Term} {y : String} (h : Resolves b t (.var y)) : Occurs b x t (y == x)
  | constant {t u : Term} (h : Resolves b t u) (hv : ∀ y, u ≠ .var y)
      (hl : ∀ items, u ≠ .list items) : Occurs b x t false
  | inside {t u : Term} {before after : List Term}
      (h : Resolves b t (.list (before ++ u :: after)))
      (hbefore : ∀ v ∈ before, Occurs b x v false) (hu : Occurs b x u true) : Occurs b x t true
  | outside {t : Term} {items : List Term} (h : Resolves b t (.list items))
      (elements : ∀ v ∈ items, Occurs b x v false) : Occurs b x t false

/-! ## Resolving -/

/-- Following as many bindings as the rank of the variable says comes to an end. -/
theorem WellFormed.resolves_follow (hb : b.WellFormed) (n : Nat) (t : Term)
    (ht : ∀ x, t = .var x → b.rank x ≤ n) : Resolves b t (b.follow n t) := by
  induction n generalizing t with
  | zero =>
    cases t with
    | var x =>
      refine .free (Option.eq_none_iff_forall_ne_some.2 fun u hu => ?_)
      exact absurd (ht x rfl) (Nat.not_le.2 (rank_pos hu))
    | _ => exact .value (by simp)
  | succ n ih =>
    cases t with
    | var x =>
      cases hg : b.get? x with
      | none =>
        rw [follow, hg]
        exact .free hg
      | some u =>
        rw [follow, hg]
        refine .bound hg (ih u ?_)
        rintro y rfl
        have hlt := hb.rank_lt_of_get? (y := y) hg (by simp)
        have hle := ht x rfl
        omega
    | _ => exact .value (by simp)

/-- Following a variable ends, and `resolve` gives the end. -/
theorem WellFormed.resolves_resolve (hb : b.WellFormed) (t : Term) : Resolves b t (b.resolve t) :=
  hb.resolves_follow b.weight t fun x _ => (b.rank_le_card x).trans b.card_keys_le_weight

/-- The loop has one result. -/
theorem Resolves.unique {v : Term} (h : Resolves b t u) (h' : Resolves b t v) : u = v := by
  induction h with
  | bound hg _ ih =>
    cases h' with
    | bound hg' hv =>
      rw [hg] at hg'
      cases hg'
      exact ih hv
    | free hf =>
      rw [hg] at hf
      cases hf
    | value hv => exact absurd rfl (hv _)
  | free hf =>
    cases h' with
    | bound hg =>
      rw [hf] at hg
      cases hg
    | free | value => rfl
  | value hu =>
    cases h' with
    | bound | free => exact absurd rfl (hu _)
    | value => rfl

/-- On well-formed bindings the loop ends, with the result of `resolve`. -/
theorem WellFormed.resolves_iff (hb : b.WellFormed) : Resolves b t u ↔ u = b.resolve t :=
  ⟨fun h => h.unique (hb.resolves_resolve t), fun h => h ▸ hb.resolves_resolve t⟩

/-- A variable at the end is free. -/
theorem Resolves.get?_eq_none (h : Resolves b t (.var x)) : b.get? x = none := by
  generalize hu : Term.var x = u at h
  induction h with
  | bound _ _ ih => exact ih hu
  | free h => cases hu; exact h
  | value h => exact absurd hu.symm (h x)

/-- The end is its own end. -/
theorem Resolves.resolves_self (h : Resolves b t u) : Resolves b u u := by
  induction h with
  | bound _ _ ih => exact ih
  | free h => exact .free h
  | value h => exact .value h

/-- Only the anonymous variable itself resolves to it. -/
theorem Resolves.ne_anonymous (hb : b.WellFormed) (h : Resolves b t u)
    (ht : t ≠ .var Term.anonymousName) : u ≠ .var Term.anonymousName := by
  induction h with
  | bound hg _ ih =>
    refine ih ?_
    rintro rfl
    exact hb.value_ne_anonymous _ hg
  | free | value => exact ht

/-- Resolving a term first does not change what it is when bound variables are replaced, also by
bindings that were added later. -/
theorem Resolves.resolveDeep_eq (h : Resolves b t u) (hb' : b'.WellFormed) (he : b.Extends b') :
    b'.resolveDeep u = b'.resolveDeep t := by
  induction h with
  | bound hg _ ih => rw [ih, hb'.resolveDeep_bound (he _ _ hg)]
  | free | value => rfl

/-- What a term is when bound variables are replaced, from what it resolves to. -/
theorem Resolves.resolveDeep_eq_self (h : Resolves b t u) (hb : b.WellFormed)
    (hu : ∀ items, u ≠ .list items) : b.resolveDeep t = u := by
  rw [← h.resolveDeep_eq hb (Extends.refl b)]
  cases u with
  | var x => exact resolveDeep_free h.get?_eq_none
  | list items => exact absurd rfl (hu items)
  | atom | num | str => rw [resolveDeep_eq_subst]; rfl

/-- A term that resolves to a list stands for the list of what the items stand for. -/
theorem Resolves.resolveDeep_list {items : List Term} (h : Resolves b t (.list items))
    (hb : b.WellFormed) : b.resolveDeep t = .list (items.map b.resolveDeep) := by
  rw [← h.resolveDeep_eq hb (Extends.refl b), Bindings.resolveDeep_list]

/-- Induction along the lists that are met when a term is resolved again and again. It is an
induction over the term with all bound variables replaced. -/
theorem WellFormed.resolve_induction (hb : b.WellFormed) {motive : Term → Prop}
    (free : ∀ t y, Resolves b t (.var y) → motive t)
    (constant : ∀ t u, Resolves b t u → (∀ y, u ≠ .var y) → (∀ items, u ≠ .list items) → motive t)
    (list : ∀ t items, Resolves b t (.list items) → (∀ v ∈ items, motive v) → motive t)
    (t : Term) : motive t := by
  have hother : ∀ {v}, (∀ items, b.resolveDeep v ≠ .list items) → motive v := by
    intro v hv
    have hr := hb.resolves_resolve v
    cases hu : b.resolve v with
    | var y => exact free v y (hu ▸ hr)
    | list items => exact absurd ((hu ▸ hr).resolveDeep_list hb) (hv _)
    | atom | num | str => exact constant v _ (hu ▸ hr) (by simp) (by simp)
  obtain ⟨u, hu⟩ : ∃ u, b.resolveDeep t = u := ⟨_, rfl⟩
  induction u generalizing t with
  | var | atom | num | str => exact hother (by simp [hu])
  | list values ih =>
    have hr := hb.resolves_resolve t
    cases hv : b.resolve t with
    | list items =>
      rw [hv] at hr
      have hvalues : values = items.map b.resolveDeep := by
        simpa [hu] using hr.resolveDeep_list hb
      -- the items themselves need not be smaller than `t`, but their replaced forms are
      refine list t items hr fun v hvi => ih (b.resolveDeep v) ?_ v rfl
      rw [hvalues]
      exact List.mem_map_of_mem hvi
    | _ =>
      rw [hv] at hr
      rw [hr.resolveDeep_eq_self hb (by simp)] at hu
      cases hu

/-- Resolving a term and its elements ends, and `resolveDeep` gives the end. -/
theorem WellFormed.resolvesDeep_resolveDeep (hb : b.WellFormed) (t : Term) :
    ResolvesDeep b t (b.resolveDeep t) := by
  induction t using hb.resolve_induction with
  | free t y h =>
    rw [h.resolveDeep_eq_self hb (by simp)]
    exact .other h (by simp)
  | constant t u h _ hl =>
    rw [h.resolveDeep_eq_self hb hl]
    exact .other h hl
  | list t items h ih =>
    rw [h.resolveDeep_list hb]
    exact .list h (List.forall₂_map_right_iff.2 (List.forall₂_same.2 ih))

theorem forall₂_eq_map {α β : Type} {R : α → β → Prop} {f : α → β} {as : List α} {cs : List β}
    (h : List.Forall₂ R as cs) (hf : ∀ a ∈ as, ∀ c, R a c → c = f a) : cs = as.map f := by
  induction h with
  | nil => rfl
  | cons hac _ ih =>
    obtain ⟨ha, has⟩ := List.forall_mem_cons.1 hf
    rw [List.map_cons, ha _ hac, ih has]

/-- On well-formed bindings the deep loop ends, with the result of `resolveDeep`. -/
theorem WellFormed.resolvesDeep_iff (hb : b.WellFormed) :
    ResolvesDeep b t u ↔ u = b.resolveDeep t := by
  refine ⟨fun h => ?_, fun h => h ▸ hb.resolvesDeep_resolveDeep t⟩
  induction t using hb.resolve_induction generalizing u with
  | free t y hr =>
    cases h with
    | list hl _ => cases hl.unique hr
    | other hu _ => rw [hu.unique hr, hr.resolveDeep_eq_self hb (by simp)]
  | constant t v hr _ hv =>
    cases h with
    | list hl _ => exact absurd (hr.unique hl) (hv _)
    | other hu _ => rw [hu.unique hr, hr.resolveDeep_eq_self hb hv]
  | list t items hr ih =>
    cases h with
    | list hl helements =>
      cases hl.unique hr
      rw [hr.resolveDeep_list hb, forall₂_eq_map helements fun v hv c hc => ih v hv hc]
    | other hu hne => exact absurd (hu.unique hr) (hne _)

/-! ## The occurs check -/

/-- Looking for a variable along the bindings is looking for it in the expansion. -/
theorem reaches_eq_anyVar (b : Bindings) (x : String) (n : Nat) (t : Term) :
    b.reaches x n t = (b.expand n t).anyVar (· == x) := by
  induction n generalizing t with
  | zero => rfl
  | succ n ih =>
    rw [reaches, expand, Term.anyVar_subst]
    congr 1
    funext y
    cases b.get? y with
    | none => rfl
    | some u => exact ih u

/-- A variable occurs in a term if it is left when bound variables are replaced. -/
theorem occurs_eq_true : b.occurs x t = true ↔ x ∈ (b.resolveDeep t).variableNames := by
  rw [occurs, reaches_eq_anyVar, Term.anyVar_eq_true, ← resolveDeep]
  simp

/-- The occurs check tells whether the variable is in what the term stands for. -/
theorem Occurs.eq_true_iff {found : Bool} (h : Occurs b x t found) (hb : b.WellFormed) :
    found = true ↔ x ∈ (b.resolveDeep t).variableNames := by
  induction h with
  | free h =>
    rw [h.resolveDeep_eq_self hb (by simp), beq_iff_eq, Term.mem_variableNames_var, eq_comm]
  | @constant t u h hv hl =>
    rw [h.resolveDeep_eq_self hb hl]
    cases u with
    | var y => exact absurd rfl (hv y)
    | list items => exact absurd rfl (hl items)
    | atom | num | str => simp
  | @inside t u before after h _ _ _ ih =>
    rw [h.resolveDeep_list hb, Term.mem_variableNames_list]
    exact iff_of_true rfl ⟨b.resolveDeep u, List.mem_map_of_mem (by simp), ih.1 rfl⟩
  | outside h _ ih =>
    rw [h.resolveDeep_list hb]
    simpa using ih

theorem Occurs.eq_occurs {found : Bool} (h : Occurs b x t found) (hb : b.WellFormed) :
    found = b.occurs x t :=
  Bool.eq_iff_iff.2 ((h.eq_true_iff hb).trans occurs_eq_true.symm)

/-- Going through a list until something is found ends if it ends for each element. -/
theorem exists_first {α : Type} {answers : α → Bool → Prop} (as : List α)
    (h : ∀ a ∈ as, ∃ found, answers a found) :
    (∀ a ∈ as, answers a false) ∨
      ∃ before a after, as = before ++ a :: after ∧ (∀ c ∈ before, answers c false) ∧
        answers a true := by
  induction as with
  | nil => simp
  | cons a rest ih =>
    obtain ⟨found, ha⟩ := h a List.mem_cons_self
    cases found with
    | true => exact Or.inr ⟨[], a, rest, rfl, by simp, ha⟩
    | false =>
      rcases ih fun c hc => h c (List.mem_cons_of_mem _ hc) with hr | ⟨before, c, after, he, hr, hc⟩
      · exact Or.inl (List.forall_mem_cons.2 ⟨ha, hr⟩)
      · exact Or.inr ⟨a :: before, c, after, by rw [he]; rfl, List.forall_mem_cons.2 ⟨ha, hr⟩, hc⟩

/-- Looking for a variable ends, and `occurs` gives the answer. -/
theorem WellFormed.occurs_occurs (hb : b.WellFormed) (x : String) (t : Term) :
    Occurs b x t (b.occurs x t) := by
  suffices h : ∃ found, Occurs b x t found by
    obtain ⟨found, h⟩ := h
    exact h.eq_occurs hb ▸ h
  induction t using hb.resolve_induction with
  | free t y h => exact ⟨_, .free h⟩
  | constant t u h hv hl => exact ⟨_, .constant h hv hl⟩
  | list t items h ih =>
    rcases exists_first items ih with hall | ⟨before, u, after, rfl, hbefore, hu⟩
    · exact ⟨_, .outside h hall⟩
    · exact ⟨_, .inside h hbefore hu⟩

/-- On well-formed bindings the occurs check ends, with the result of `occurs`. -/
theorem WellFormed.occurs_iff (hb : b.WellFormed) {found : Bool} :
    Occurs b x t found ↔ found = b.occurs x t :=
  ⟨fun h => h.eq_occurs hb, fun h => h ▸ hb.occurs_occurs x t⟩

end Bindings

end StackLogic.Horn
