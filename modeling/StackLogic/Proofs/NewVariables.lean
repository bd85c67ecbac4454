import StackLogic.Proofs.Equations

/-!
# New variables in place of `_`

`Term.nameHoles` replaces every `_` in a term by a variable of its own. A term matches what becomes
of it, under every substitution that leaves `_` alone (`Term.matches_nameHoles`). So a solution of
equations with new variables fits the equations with `_`, which then have a solution too
(`exists_unifyPairs_of_named`).
-/

namespace StackLogic.Horn

open Bindings Term

namespace Term

mutual

/-- How often `_` occurs in a term. -/
def holes : Term → Nat
  | var name => if name = anonymousName then 1 else 0
  | list items => holesAll items
  | _ => 0

/-- How often `_` occurs in several terms. -/
def holesAll : List Term → Nat
  | [] => 0
  | t :: rest => t.holes + holesAll rest

end

mutual

/-- Replace every `_`, from left to right, by a variable of its own: `fresh k`, `fresh (k + 1)`, and
so on. -/
def nameHoles (fresh : Nat → String) (k : Nat) : Term → Term
  | var name => if name = anonymousName then var (fresh k) else var name
  | list items => list (nameHolesAll fresh k items)
  | t => t

/-- Replace every `_` in several terms. -/
def nameHolesAll (fresh : Nat → String) (k : Nat) : List Term → List Term
  | [] => []
  | t :: rest => t.nameHoles fresh k :: nameHolesAll fresh (k + t.holes) rest

end

/-- The names are not in the term. -/
def Apart (fresh : Nat → String) (t : Term) : Prop := ∀ i, fresh i ∉ t.variableNames

variable {fresh : Nat → String} {N : Number → Prop} {σ : String → Term} {t : Term} {k : Nat}
  {items : List Term} {x : String}

theorem apart_list : (list items).Apart fresh ↔ ∀ t ∈ items, t.Apart fresh := by
  simp only [Apart, mem_variableNames_list, not_exists, not_and]
  exact ⟨fun h t ht i => h i t ht, fun h i t ht => h t ht i⟩

theorem hereditary_apart : Hereditary (Apart fresh) := apart_list.1

theorem nameHoles_var (hx : x ≠ anonymousName) : (var x).nameHoles fresh k = var x :=
  if_neg hx

theorem holes_anonymous : (var anonymousName).holes = 1 := by
  rw [holes, if_pos rfl]

theorem nameHoles_anonymous : (var anonymousName).nameHoles fresh k = var (fresh k) := by
  rw [nameHoles, if_pos rfl]

/-- Without `_` there is nothing to name. -/
theorem nameHoles_eq_self (h : t.Named) : t.nameHoles fresh k = t := by
  induction t generalizing k with
  | var name => exact nameHoles_var (named_var.1 h)
  | atom | num | str => rfl
  | list items ih =>
    rw [nameHoles]
    congr 1
    rw [named_list] at h
    induction items generalizing k with
    | nil => rfl
    | cons t rest ihrest =>
      obtain ⟨ht, hrest⟩ := List.forall_mem_cons.1 h
      obtain ⟨iht, ihs⟩ := List.forall_mem_cons.1 ih
      rw [nameHolesAll, iht ht, ihrest ihs hrest]

theorem holes_eq_zero (h : t.Named) : t.holes = 0 := by
  induction t with
  | var name => exact if_neg (named_var.1 h)
  | atom | num | str => rfl
  | list items ih =>
    rw [holes]
    rw [named_list] at h
    induction items with
    | nil => rfl
    | cons t rest ihrest =>
      obtain ⟨ht, hrest⟩ := List.forall_mem_cons.1 h
      obtain ⟨iht, ihs⟩ := List.forall_mem_cons.1 ih
      rw [holesAll, iht ht, ihrest ihs hrest]

theorem numbers_nameHoles (t : Term) : (t.nameHoles fresh k).numbers = t.numbers := by
  induction t generalizing k with
  | var name =>
    rw [nameHoles]
    split <;> rfl
  | atom | num | str => rfl
  | list items ih =>
    simp only [nameHoles, numbers]
    induction items generalizing k with
    | nil => rfl
    | cons t rest ihrest =>
      obtain ⟨iht, ihs⟩ := List.forall_mem_cons.1 ih
      rw [nameHolesAll, numbersAll, numbersAll, iht, ihrest ihs]

/-- Naming holes keeps the numbers of a term. -/
theorem Valued.nameHoles (h : t.Valued N) : (t.nameHoles fresh k).Valued N := by
  rw [Valued, numbers_nameHoles]
  exact h

/-- The variables of a term with names for its `_` are its own and the names it was given. -/
theorem mem_variableNames_nameHoles (h : x ∈ (t.nameHoles fresh k).variableNames) :
    (x ∈ t.variableNames ∧ x ≠ anonymousName) ∨ ∃ i, k ≤ i ∧ i < k + t.holes ∧ x = fresh i := by
  induction t generalizing k with
  | var name =>
    by_cases hname : name = anonymousName
    · rw [hname, nameHoles_anonymous, mem_variableNames_var] at h
      refine Or.inr ⟨k, Nat.le_refl k, ?_, h⟩
      rw [hname, holes, if_pos rfl]
      omega
    · rw [nameHoles_var hname] at h
      exact Or.inl ⟨h, mem_variableNames_var.1 h ▸ hname⟩
  | atom | num | str => cases h
  | list items ih =>
    rw [nameHoles, mem_variableNames_list] at h
    simp only [mem_variableNames_list, holes]
    induction items generalizing k with
    | nil => simp [nameHolesAll] at h
    | cons t rest ihrest =>
      obtain ⟨iht, ihs⟩ := List.forall_mem_cons.1 ih
      obtain ⟨u, hu, hx⟩ := h
      rw [holesAll]
      rcases List.mem_cons.1 hu with rfl | hu
      · rcases iht hx with ⟨hmem, hne⟩ | ⟨i, hk, hi, hxi⟩
        · exact Or.inl ⟨⟨t, List.mem_cons_self, hmem⟩, hne⟩
        · exact Or.inr ⟨i, hk, by omega, hxi⟩
      · rcases ihrest ihs ⟨u, hu, hx⟩ with ⟨⟨v, hv, hmem⟩, hne⟩ | ⟨i, hk, hi, hxi⟩
        · exact Or.inl ⟨⟨v, List.mem_cons_of_mem _ hv, hmem⟩, hne⟩
        · exact Or.inr ⟨i, by omega, by omega, hxi⟩

theorem named_nameHoles (hfresh : ∀ i, fresh i ≠ anonymousName) : (t.nameHoles fresh k).Named := by
  intro h
  rcases mem_variableNames_nameHoles h with ⟨-, hne⟩ | ⟨i, -, -, hi⟩
  · exact hne rfl
  · exact hfresh i hi.symm

/-- A term matches what becomes of it when its `_` are given names. -/
theorem matches_nameHoles (hσ : σ anonymousName = .var anonymousName) (t : Term) :
    (t.subst σ).Matches ((t.nameHoles fresh k).subst σ) := by
  induction t generalizing k with
  | var name =>
    by_cases hname : name = anonymousName
    · rw [hname, subst_var, hσ]
      exact .anonymousLeft _
    · rw [nameHoles_var hname]
      exact .refl _
  | atom | num | str => exact .refl _
  | list items ih =>
    rw [nameHoles, subst_list, subst_list]
    refine .list (List.forall₂_map_left_iff.2 (List.forall₂_map_right_iff.2 ?_))
    induction items generalizing k with
    | nil => exact .nil
    | cons t rest ihrest =>
      obtain ⟨iht, ihs⟩ := List.forall_mem_cons.1 ih
      exact .cons iht (ihrest ihs)

end Term

/-- Replace every `_` in equations by a variable of its own, from left to right. -/
def nameEquations (fresh : Nat → String) : Nat → List (Term × Term) → List (Term × Term)
  | _, [] => []
  | k, e :: rest =>
    (e.1.nameHoles fresh k, e.2.nameHoles fresh (k + e.1.holes)) ::
      nameEquations fresh (k + e.1.holes + e.2.holes) rest

variable {fresh : Nat → String} {N : Number → Prop} {σ : String → Term} {b b' : Bindings}
  {t u : Term} {k : Nat} {x : String} {equations : List (Term × Term)}

theorem length_nameEquations :
    (nameEquations fresh k equations).length = equations.length := by
  induction equations generalizing k with
  | nil => rfl
  | cons e rest ih => rw [nameEquations, List.length_cons, List.length_cons, ih]

/-- Each equation has its named form. -/
theorem exists_mem_nameEquations (fresh : Nat → String) (k : Nat) {e : Term × Term}
    (he : e ∈ equations) :
    ∃ i j, (e.1.nameHoles fresh i, e.2.nameHoles fresh j) ∈ nameEquations fresh k equations := by
  induction equations generalizing k with
  | nil => cases he
  | cons e' rest ih =>
    rcases List.mem_cons.1 he with rfl | he
    · exact ⟨_, _, List.mem_cons_self⟩
    · obtain ⟨i, j, hmem⟩ := ih _ he
      exact ⟨i, j, List.mem_cons_of_mem _ hmem⟩

/-- What holds of all named forms holds of the named equations. -/
theorem forall_mem_nameEquations {Q : Term → Prop}
    (h : ∀ e ∈ equations, ∀ i j, Q (e.1.nameHoles fresh i) ∧ Q (e.2.nameHoles fresh j)) :
    ∀ e ∈ nameEquations fresh k equations, Q e.1 ∧ Q e.2 := by
  induction equations generalizing k with
  | nil => exact nofun
  | cons e rest ih =>
    obtain ⟨hhead, htail⟩ := List.forall_mem_cons.1 h
    exact List.forall_mem_cons.2 ⟨hhead _ _, ih htail⟩

/-! ## From new variables back to `_` -/

/-- A variable that is in no bound term is in nothing that terms stand for. -/
theorem Bindings.All.not_mem_resolveDeep (hb : b.All fun u => x ∉ u.variableNames)
    (ht : x ∉ t.variableNames) : x ∉ (b.resolveDeep t).variableNames := by
  have hexpand : ∀ n (t : Term), x ∉ t.variableNames → x ∉ (b.expand n t).variableNames := by
    intro n
    induction n with
    | zero => exact fun t ht => ht
    | succ n ih =>
      intro t ht hmem
      obtain ⟨y, hy, hxy⟩ := (mem_variableNames_subst t).1 hmem
      cases hg : b.get? y with
      | none =>
        rw [hg, mem_variableNames_var] at hxy
        exact ht (hxy ▸ hy)
      | some u =>
        rw [hg] at hxy
        exact ih u (hb y u hg).2 hxy
  exact hexpand b.weight t ht

theorem Bindings.All.valued_resolveDeep (hb : b.All (Valued N)) (ht : t.Valued N) :
    (b.resolveDeep t).Valued N := by
  have hexpand : ∀ n (t : Term), t.Valued N → (b.expand n t).Valued N := by
    intro n
    induction n with
    | zero => exact fun t ht => ht
    | succ n ih =>
      intro t ht
      refine ht.subst fun y => ?_
      cases hg : b.get? y with
      | none => exact nofun
      | some u => exact ih u (hb y u hg).2
  exact hexpand b.weight t ht

/-- Replacing bound variables brings in no `_` if no value has one. -/
theorem filling_resolveDeep (hb : b.WellFormed) (hnamed : b.All Named) (hvalued : b.All (Valued N)) :
    Filling N fun x => b.resolveDeep (.var x) where
  anonymous := resolveDeep_free hb.anonymous_free
  named := fun _ hx => hnamed.not_mem_resolveDeep (named_var.2 hx)
  valued := fun _ => hvalued.valued_resolveDeep nofun

/-- Equations have a solution if they have one with new variables for `_`. -/
theorem exists_unifyPairs_of_named (hN : Number.Comparable N)
    (hvalued : ∀ e ∈ equations, e.1.Valued N ∧ e.2.Valued N)
    (hfresh : ∀ i, fresh i ≠ anonymousName)
    (h : unifyPairs (nameEquations fresh k equations) .empty = some b) :
    ∃ b', unifyPairs equations .empty = some b' := by
  have hb := (unifyPairs_wellFormed h wellFormed_empty).1
  have hnamed : b.All Named := by
    refine unifyPairs_all h hereditary_named wellFormed_empty (all_empty _) ?_
    exact forall_mem_nameEquations fun e _ i j => ⟨named_nameHoles hfresh, named_nameHoles hfresh⟩
  have hb_valued : b.All (Valued N) := by
    refine unifyPairs_all h hereditary_valued wellFormed_empty (all_empty _) ?_
    exact forall_mem_nameEquations fun e he i j =>
      ⟨(hvalued e he).1.nameHoles, (hvalued e he).2.nameHoles⟩
  have hσ := filling_resolveDeep hb hnamed hb_valued
  refine exists_unifyPairs_of_fits hN hσ wellFormed_empty (all_empty _) (fitBy_empty _) hvalued ?_
  intro e he
  obtain ⟨hl, hr⟩ := hvalued e he
  obtain ⟨i, j, hmem⟩ := exists_mem_nameEquations fresh k he
  have hunites := unites_of_unifyPairs h wellFormed_empty _ hmem
  rw [Unites, b.resolveDeep_eq_subst, b.resolveDeep_eq_subst (e.2.nameHoles fresh j)] at hunites
  have hnames : ∀ (t : Term) m, ((t.nameHoles fresh m).subst fun x => b.resolveDeep (.var x)).Named :=
    fun t m => (named_nameHoles hfresh).subst hσ.named
  have hvalues : ∀ {t : Term} {m}, t.Valued N →
      ((t.nameHoles fresh m).subst fun x => b.resolveDeep (.var x)).Valued N :=
    fun ht => ht.nameHoles.subst hσ.valued
  refine ⟨_, hnames e.1 i, hvalues hl, matches_nameHoles hσ.anonymous e.1, ?_⟩
  have hback := hunites.symm hN (hvalues hl) (hvalues hr)
  exact (matches_nameHoles hσ.anonymous e.2).trans hN (hnames e.2 j) (hr.subst hσ.valued)
    (hvalues hr) (hvalues hl) hback

end StackLogic.Horn
