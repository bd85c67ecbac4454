import StackLogic.Proofs.Nesting

/-!
# Most general unifiers

For terms without `_` and without floating-point numbers, unification computes a most general
unifier. The bindings it returns make both sides equal, and they are satisfied by every substitution
that satisfies the given bindings and makes both sides equal. So unification fails only if no such
substitution exists.
-/

namespace StackLogic.Horn

open Bindings

variable {b b' : Bindings} {p : Problem}

/-- Replacing bound variables in all terms is itself a substitution that satisfies the bindings. -/
theorem Bindings.WellFormed.satisfiedBy_resolveDeep (hb : b.WellFormed) :
    b.SatisfiedBy fun x => b.resolveDeep (.var x) := by
  intro x t hx
  show b.resolveDeep (.var x) = _
  rw [hb.resolveDeep_bound hx, resolveDeep_eq_subst]

/-- A run of unification solves its problem by what each variable stands for. -/
theorem Unifying.solvedBy_resolveDeep (h : Unifying p b (some b')) (hp : p.All Term.Plain)
    (hb : b.WellFormed) (hplain : b.All Term.Plain) :
    p.SolvedBy fun x => b'.resolveDeep (.var x) :=
  h.solvedBy hp hb hplain rfl (h.wellFormed hb rfl).1.satisfiedBy_resolveDeep

theorem map_resolveDeep (b : Bindings) (ts : List Term) :
    ts.map b.resolveDeep = ts.map (Term.subst fun x => b.resolveDeep (.var x)) :=
  List.map_congr_left fun t _ => b.resolveDeep_eq_subst t

/-- Under well-formed bindings of plain terms, unifying two plain terms or two lists of plain terms
of the same length gives a most general unifier: both sides become equal, and a substitution that
satisfies the bindings and makes both sides equal satisfies the result, which then exists. Lists of
different length never unify. -/
theorem unify_mostGeneral (hb : b.WellFormed) (hplain : b.All Term.Plain) :
    (∀ left right : Term, left.Plain → right.Plain →
      (∀ b', unify left right b = some b' → b'.resolveDeep left = b'.resolveDeep right) ∧
      (∀ σ, b.SatisfiedBy σ → left.subst σ = right.subst σ →
        ∃ b', unify left right b = some b' ∧ b'.SatisfiedBy σ)) ∧
    (∀ lefts rights : List Term, (∀ t ∈ lefts, t.Plain) → (∀ t ∈ rights, t.Plain) →
      lefts.length = rights.length →
      (∀ b', unifyAll lefts rights b = some b' →
        lefts.map b'.resolveDeep = rights.map b'.resolveDeep) ∧
      (∀ σ, b.SatisfiedBy σ → lefts.map (Term.subst σ) = rights.map (Term.subst σ) →
        ∃ b', unifyAll lefts rights b = some b' ∧ b'.SatisfiedBy σ)) ∧
    (∀ lefts rights : List Term, lefts.length ≠ rights.length →
      unifyAll lefts rights b = none) := by
  refine ⟨fun left right hl hr => ⟨fun b' hu => ?_, fun σ hσ heq => ?_⟩,
    fun lefts rights hl hr hlen => ⟨fun b' hu => ?_, fun σ hσ heq => ?_⟩,
    fun lefts rights hlen => unifyAll_eq_none hlen⟩
  · have hrun := unifying_unify hb left right
    rw [hu] at hrun
    rw [b'.resolveDeep_eq_subst left, b'.resolveDeep_eq_subst right]
    exact hrun.solvedBy_resolveDeep ⟨hl, hr⟩ hb hplain
  · exact (unifying_unify hb left right).exists_of_solvedBy ⟨hl, hr⟩ hb hplain hσ heq
  · rw [map_resolveDeep, map_resolveDeep]
    exact (unifying_of_unifyAll hb hu).solvedBy_resolveDeep ⟨hl, hr⟩ hb hplain
  · exact (unifying_unifyAll hb hlen).exists_of_solvedBy ⟨hl, hr⟩ hb hplain hσ heq

/-- Under `W = [X]`, the lists `[W, X]` and `[[a], Y]` have the common instance in which all of `X`
and `Y` are `a`, and unification gives bindings that it satisfies. As argument lists `W, X` and
`[a], Y` unify too, and `W, X` does not unify with `[a]` alone. No substitution makes `X` and `W`
equal. -/
theorem unify_mostGeneral_sample :
    ∃ b, unify (.var "W") (.list [.var "X"]) .empty = some b ∧ b.WellFormed ∧ b.All Term.Plain ∧
      (∃ b', unify (.list [.var "W", .var "X"]) (.list [.list [.atom "a"], .var "Y"]) b = some b' ∧
        b'.resolveDeep (.list [.var "W", .var "X"]) =
          b'.resolveDeep (.list [.list [.atom "a"], .var "Y"]) ∧
        b'.SatisfiedBy fun x => if x = "W" then .list [.atom "a"] else .atom "a") ∧
      (∃ b', unifyAll [.var "W", .var "X"] [.list [.atom "a"], .var "Y"] b = some b' ∧
        b'.SatisfiedBy fun x => if x = "W" then .list [.atom "a"] else .atom "a") ∧
      unifyAll [.var "W", .var "X"] [.list [.atom "a"]] b = none ∧
      ∀ σ, b.SatisfiedBy σ → σ "X" ≠ σ "W" := by
  have hW : (Term.var "W").Plain := .var (by decide)
  have hX : (Term.var "X").Plain := .var (by decide)
  have hY : (Term.var "Y").Plain := .var (by decide)
  have hlist : (Term.list [.var "X"]).Plain := .list (by simpa using hX)
  have ha : (Term.list [.atom "a"]).Plain := .list (by simpa using Term.Plain.atom)
  have hu : unify (.var "W") (.list [.var "X"]) .empty =
      some (Bindings.empty.extend "W" (.list [.var "X"])) := rfl
  have hb := (unify_wellFormed wellFormed_empty hu).1
  have hplain : (Bindings.empty.extend "W" (.list [.var "X"])).All Term.Plain :=
    (all_empty _).extend hW hlist
  have hσ : (Bindings.empty.extend "W" (.list [.var "X"])).SatisfiedBy
      fun x => if x = "W" then .list [.atom "a"] else .atom "a" :=
    (satisfiedBy_empty _).extend rfl
  have hlefts : ∀ t ∈ [Term.var "W", .var "X"], t.Plain := by simp [hW, hX]
  have hrights : ∀ t ∈ [Term.list [.atom "a"], .var "Y"], t.Plain := by simp [ha, hY]
  obtain ⟨hpairs, hlists, hlengths⟩ := unify_mostGeneral hb hplain
  refine ⟨_, hu, hb, hplain, ?_, ?_, hlengths _ _ (by simp), ?_⟩
  · obtain ⟨hequal, hgeneral⟩ := hpairs _ _ (.list hlefts) (.list hrights)
    obtain ⟨b', hb', hσ'⟩ := hgeneral _ hσ rfl
    exact ⟨b', hb', hequal b' hb', hσ'⟩
  · exact (hlists _ _ hlefts hrights rfl).2 _ hσ rfl
  · intro σ hσ heq
    obtain ⟨b', hb', _⟩ := (hpairs _ _ hX hW).2 σ hσ heq
    cases hb'

end StackLogic.Horn
