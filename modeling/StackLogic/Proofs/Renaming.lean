import StackLogic.Proofs.Derivation

/-!
# Renaming clauses apart

The `k`-th use of a clause renames each of its variables to a name that ends in `#k`. After `a` uses
all names in a search are issued (`IssuedName a`), so the names of the next use are new, and a
substitution for the old names can be extended to them at will (`extendTo`).
-/

namespace StackLogic.Horn

open Bindings

/-- The name does not belong to a use after the first `a` uses. -/
def IssuedName (a : Nat) (x : String) : Prop := ∀ k y, x = Term.freshName k y → k ≤ a

variable {a c k m : Nat} {x y : String} {σ τ : String → Term}

theorem IssuedName.mono (h : IssuedName a x) (hac : a ≤ c) : IssuedName c x :=
  fun k y hx => Nat.le_trans (h k y hx) hac

theorem issuedName_freshName : IssuedName a (Term.freshName k y) ↔ k ≤ a := by
  refine ⟨fun h => h k y rfl, fun hk j z hj => ?_⟩
  rw [← (Term.freshName_inj hj).1]
  exact hk

/-- Names without `#`, which are those of queries and clauses, are issued from the start. -/
theorem issuedName_of_hash_not_mem (h : '#' ∉ x.toList) : IssuedName a x := by
  rintro k y rfl
  exact absurd (Term.hash_mem_freshName k y) h

/-- Renaming a clause gives names that are issued with its activation. -/
theorem issuedName_renamedName (hk : k ≤ a) (y : String) :
    IssuedName a (Term.renamedName (Term.freshName k) y) := by
  unfold Term.renamedName
  split
  next hy => exact issuedName_of_hash_not_mem (by rw [hy]; decide)
  next => exact issuedName_freshName.2 hk

/-- All variables of the term are issued. -/
def Term.Issued (a : Nat) (t : Term) : Prop := ∀ x ∈ t.variableNames, IssuedName a x

theorem Term.Issued.mono {t : Term} (h : t.Issued a) (hac : a ≤ c) : t.Issued c :=
  fun x hx => (h x hx).mono hac

theorem Term.issued_rename (t : Term) (hk : k ≤ a) : (t.rename (Term.freshName k)).Issued a := by
  intro x hx
  obtain ⟨y, _, rfl⟩ := (Term.mem_variableNames_rename t).1 hx
  exact issuedName_renamedName hk y

/-- That all variables are issued is inherited by what terms stand for. -/
theorem inherited_issued (m : Nat) : Inherited (Term.Issued m) m where
  element h t ht x hx := h x (Term.mem_variableNames_list.2 ⟨t, ht, hx⟩)
  var ht hx y hy := Term.mem_variableNames_var.1 hy ▸ ht _ hx
  subst {t f} _ hf x hx := by
    obtain ⟨y, hy, hxy⟩ := (Term.mem_variableNames_subst t).1 hx
    exact hf y hy x hxy
  renamed {t k} _ hk := t.issued_rename hk

/-- The variable is bound, or it occurs in what some variable is bound to. -/
def Bindings.Mentions (b : Bindings) (x : String) : Prop :=
  ∃ y t, b.get? y = some t ∧ (x = y ∨ x ∈ t.variableNames)

theorem Bindings.all_issued {b : Bindings} :
    b.All (Term.Issued a) ↔ ∀ x, b.Mentions x → IssuedName a x := by
  constructor
  · rintro h x ⟨y, t, hy, rfl | hxt⟩
    · exact (h x t hy).1 x (by simp)
    · exact (h y t hy).2 x hxt
  · intro h y t hy
    refine ⟨fun x hx => ?_, fun x hx => h x ⟨y, t, hy, Or.inr hx⟩⟩
    exact h x ⟨y, t, hy, Or.inl (Term.mem_variableNames_var.1 hx)⟩

/-! ## Substitutions that agree on issued names -/

/-- The substitutions agree on the names of the first `a` uses. -/
def AgreeTo (a : Nat) (σ τ : String → Term) : Prop := ∀ x, IssuedName a x → σ x = τ x

/-- A term whose variables are issued does not tell the two apart. -/
theorem AgreeTo.subst_eq (h : AgreeTo a σ τ) {t : Term} (ht : t.Issued a) :
    t.subst σ = t.subst τ :=
  Term.subst_congr t fun x hx => h x (ht x hx)

/-- Bindings whose variables are issued are satisfied by both or by neither. -/
theorem AgreeTo.satisfiedBy (h : AgreeTo a σ τ) {b : Bindings} (hb : b.All (Term.Issued a))
    (hτ : b.SatisfiedBy τ) : b.SatisfiedBy σ := by
  intro x t hx
  obtain ⟨hxi, hti⟩ := hb x t hx
  rw [h x (hxi x (by simp)), hτ x t hx, h.subst_eq hti]

/-- Whether a goal is derivable depends on its variables only. -/
theorem derivable_congr {d : Database} {g : Goal} (hg : g.Logical)
    (h : ∀ t ∈ g.terms, ∀ x ∈ t.variableNames, σ x = τ x) : Derivable d σ g ↔ Derivable d τ g := by
  have hterm : ∀ t ∈ g.terms, t.subst σ = t.subst τ := fun t ht => Term.subst_congr t (h t ht)
  cases g with
  | succeed => exact ⟨fun _ => .succeed, fun _ => .succeed⟩
  | fail => exact iff_of_false not_derivable_fail not_derivable_fail
  | cut => exact ⟨fun _ => .cut, fun _ => .cut⟩
  | unify left right =>
    rw [derivable_unify, derivable_unify, hterm left (by simp [Goal.terms]),
      hterm right (by simp [Goal.terms])]
  | member element list =>
    rw [derivable_member, derivable_member, hterm element (by simp [Goal.terms]),
      hterm list (by simp [Goal.terms])]
  | call name args =>
    have hargs : args.map (Term.subst σ) = args.map (Term.subst τ) := List.map_congr_left hterm
    rw [derivable_call, derivable_call, hargs]
  | newline | write | notUnify | is | compare => exact absurd hg id

/-! ## The next use of a clause -/

open Classical in
/-- `τ` on the variables of the `k`-th use of a clause, and `σ` on all other names. -/
noncomputable def extendTo (k : Nat) (τ σ : String → Term) (x : String) : Term :=
  if h : ∃ y, x = Term.freshName k y then τ h.choose else σ x

theorem extendTo_freshName (k : Nat) (τ σ : String → Term) (y : String) :
    extendTo k τ σ (Term.freshName k y) = τ y := by
  have h : ∃ z, Term.freshName k y = Term.freshName k z := ⟨y, rfl⟩
  rw [extendTo, dif_pos h, ← (Term.freshName_inj h.choose_spec).2]

/-- Variables of a later activation may be chosen freely. -/
theorem agreeTo_extendTo (hk : a < k) (τ σ : String → Term) : AgreeTo a (extendTo k τ σ) σ := by
  intro x hx
  rw [extendTo, dif_neg]
  rintro ⟨y, rfl⟩
  exact absurd (issuedName_freshName.1 hx) (Nat.not_le.2 hk)

theorem extendTo_renamedName (k : Nat) (τ σ : String → Term) (hy : y ≠ Term.anonymousName) :
    extendTo k τ σ (Term.renamedName (Term.freshName k) y) = τ y := by
  rw [Term.renamedName, if_neg hy, extendTo_freshName]

/-- On the head of the used clause, the extended substitution is `τ`. -/
theorem map_subst_extendTo {ts : List Term} (hts : ∀ t ∈ ts, t.Plain) :
    (Term.renameAll (Term.freshName k) ts).map (Term.subst (extendTo k τ σ)) =
      ts.map (Term.subst τ) := by
  rw [Term.map_subst_renameAll]
  refine List.map_congr_left fun t ht => Term.subst_congr t fun x hx => ?_
  exact extendTo_renamedName k τ σ ((hts t ht).ne_anonymousName hx)

/-- And so it is on the body. -/
theorem derivable_extendTo {d : Database} {g : Goal} (hg : g.Logical) :
    Derivable d (extendTo k τ σ) (g.rename (Term.freshName k)) ↔ Derivable d τ g := by
  rw [derivable_rename hg]
  refine derivable_congr hg fun t ht x hx => ?_
  exact extendTo_renamedName k τ σ ((hg.plain t ht).ne_anonymousName hx)

end StackLogic.Horn
