import StackLogic.Proofs.Matching

/-!
# Replacing bound variables as a substitution

Under well-formed bindings, replacing all bound variables in a term is a substitution that leaves
none of them behind. So replacing them once more changes nothing, and neither does it matter whether
some of the bindings were followed before others were added. A search relies on that: it resolves
arguments under the bindings of a call and resolves the results again under each answer.
-/

namespace StackLogic.Horn

namespace Bindings

variable {b : Bindings} {x : String} {t : Term}

/-- No bound variable is left when bound variables are replaced. -/
theorem WellFormed.get?_of_mem_resolveDeep (hb : b.WellFormed)
    (hx : x ∈ (b.resolveDeep t).variableNames) : b.get? x = none := by
  induction t using hb.resolve_induction with
  | free t y h =>
    rw [h.resolveDeep_eq_self hb (by simp), Term.mem_variableNames_var] at hx
    rw [hx]
    exact h.get?_eq_none
  | constant t u h hv hl =>
    rw [h.resolveDeep_eq_self hb hl] at hx
    cases u with
    | var y => exact absurd rfl (hv y)
    | list items => exact absurd rfl (hl items)
    | atom | num | str => simp at hx
  | list t items h ih =>
    rw [h.resolveDeep_list hb, Term.mem_variableNames_list] at hx
    obtain ⟨_, hmem, hx⟩ := hx
    obtain ⟨v, hv, rfl⟩ := List.mem_map.1 hmem
    exact ih v hv hx

end Bindings

open Bindings

/-- Under well-formed bindings, replacing bound variables is a substitution. It leaves no bound
variable in a term, it changes nothing when it is done again, and it can be done under more bindings
afterwards as if it had not been done before. The occurs check finds exactly the variables that it
leaves. -/
theorem resolveDeep_substitutes {b : Bindings} (hb : b.WellFormed) (t : Term) :
    b.resolveDeep t = t.subst (fun x => b.resolveDeep (.var x)) ∧
    (∀ x ∈ (b.resolveDeep t).variableNames, b.get? x = none) ∧
    b.resolveDeep (b.resolveDeep t) = b.resolveDeep t ∧
    (∀ b' : Bindings, b'.WellFormed → b.Extends b' →
      b'.resolveDeep (b.resolveDeep t) = b'.resolveDeep t) ∧
    ∀ x, b.occurs x t = true ↔ x ∈ (b.resolveDeep t).variableNames := by
  refine ⟨b.resolveDeep_eq_subst t, fun x hx => hb.get?_of_mem_resolveDeep hx,
    hb.resolveDeep_resolveDeep (Extends.refl b) t, fun b' hb' he => ?_, fun x => occurs_eq_true⟩
  exact hb'.resolveDeep_resolveDeep he t

/-- The bindings `X = [Y, Z]` and `Y = [W]`. -/
def boundLists : Bindings :=
  (Bindings.empty.extend "X" (.list [.var "Y", .var "Z"])).extend "Y" (.list [.var "W"])

theorem wellFormed_boundLists : boundLists.WellFormed := by
  have hX : unify (.var "X") (.list [.var "Y", .var "Z"]) .empty =
      some (Bindings.empty.extend "X" (.list [.var "Y", .var "Z"])) := rfl
  have hY : unify (.var "Y") (.list [.var "W"])
      (Bindings.empty.extend "X" (.list [.var "Y", .var "Z"])) = some boundLists := rfl
  exact (unify_wellFormed (unify_wellFormed wellFormed_empty hX).1 hY).1

/-- Under `X = [Y, Z]` and `Y = [W]` the term `[X, V]` becomes `[[[W], Z], V]`, in which `Z` occurs and
`Y` does not. With `Z = a` added, both terms become `[[[W], a], V]`. -/
theorem resolveDeep_substitutes_boundLists :
    boundLists.WellFormed ∧
      boundLists.resolveDeep (.list [.var "X", .var "V"]) =
        .list [.list [.list [.var "W"], .var "Z"], .var "V"] ∧
      boundLists.get? "W" = none ∧
      boundLists.occurs "Z" (.list [.var "X", .var "V"]) = true ∧
      boundLists.occurs "Y" (.list [.var "X", .var "V"]) ≠ true ∧
      ∃ b', unify (.var "Z") (.atom "a") boundLists = some b' ∧ b'.WellFormed ∧
        boundLists.Extends b' ∧
        b'.resolveDeep (.list [.list [.list [.var "W"], .var "Z"], .var "V"]) =
          .list [.list [.list [.var "W"], .atom "a"], .var "V"] := by
  have hb := wellFormed_boundLists
  have hZ : unify (.var "Z") (.atom "a") boundLists =
      some (boundLists.extend "Z" (.atom "a")) := rfl
  obtain ⟨hb', he⟩ := unify_wellFormed hb hZ
  have hvalue : boundLists.resolveDeep (.list [.var "X", .var "V"]) =
      .list [.list [.list [.var "W"], .var "Z"], .var "V"] := rfl
  obtain ⟨-, hfree, -, hmore, hoccurs⟩ :=
    resolveDeep_substitutes hb (.list [.var "X", .var "V"])
  rw [hvalue] at hfree hmore hoccurs
  refine ⟨hb, hvalue, hfree "W" (by simp), (hoccurs "Z").2 (by simp), fun h => ?_, _, hZ, hb', he,
    (hmore _ hb' he).trans rfl⟩
  have hmem := (hoccurs "Y").1 h
  simp at hmem

end StackLogic.Horn
