import StackLogic.Proofs.Derivation

/-!
# Solutions are derivable

Under every substitution that satisfies a solution of a run, all goals of the run are derivable. The
induction is over answers: bindings are only ever extended, so a substitution that satisfies the
answer satisfies the bindings of every step on the way to it, and the use of a clause becomes an
instance of that clause through the names given to its variables.
-/

namespace StackLogic.Horn

open Bindings

variable {d : Database} {σ : String → Term} {g : Goal} {goals : List Goal} {b b' : Bindings}
  {m n : Nat}

/-- A goal that is settled in one step is derivable under every substitution that satisfies the
bindings. -/
theorem Yields.derivable (h : Yields g b b') (hg : g.Logical) (hw : b.WellFormed)
    (hb : b.All Term.Plain) (hσ : b'.SatisfiedBy σ) : Derivable d σ g := by
  cases h with
  | succeed => exact .succeed
  | cut => exact .cut
  | @member _ _ element list item items hl hi hu =>
    have hr : Resolves b list (.list items) := hl ▸ hw.resolves_resolve list
    have hitem := Term.hereditary_plain (hb.of_resolves hr hg.2) item hi
    have heq : element.subst σ = item.subst σ :=
      (unifying_unify hw element item).solvedBy ⟨hg.1, hitem⟩ hw hb hu hσ
    have hlist := hr.subst_eq (hσ.of_extends (unify_wellFormed hw hu).2)
    rw [Term.subst_list] at hlist
    exact .member hlist.symm (heq ▸ List.mem_map_of_mem hi)
  | unify hu => exact .unify ((unifying_unify hw _ _).solvedBy hg hw hb hu hσ)
  | newline | write | notUnify | is | compare => exact absurd hg id

/-- Under a substitution that satisfies an answer, the goals are derivable. -/
theorem Answers.derivable (h : Answers d m goals b b') (hd : d.Consists Goal.Logical)
    (hg : ∀ g ∈ goals, g.Logical) (hw : b.WellFormed) (hb : b.All Term.Plain)
    (hσ : b'.SatisfiedBy σ) : ∀ g ∈ goals, Derivable d σ g := by
  induction h with
  | nil => simp
  | builtin hy hrest ih =>
    obtain ⟨hlogical, hmore⟩ := List.forall_mem_cons.1 hg
    have hw₁ := (hy.wellFormed hw).1
    have hb₁ := hy.all ((inherited_plain m).kept hd) hlogical hlogical.plain hw hb
    have hσ₁ := hσ.of_extends (hrest.wellFormed hw₁).2
    exact List.forall_mem_cons.2 ⟨hy.derivable hlogical hw hb hσ₁, ih hmore hw₁ hb₁ hσ⟩
  | @call name args rest goals b b₁ b₂ b' clause k hc hk hu hi hbody hrest ihb ihr =>
    obtain ⟨hargs, hmore⟩ := List.forall_mem_cons.1 hg
    have hclause := hd name clause hc
    have hproblem := (inherited_plain m).call hb hclause hk hargs
    have hgoals := (inherited_plain m).body hclause hk hi
    have hunified := unifying_of_unifyAll hw hu
    have hw₁ := (unifyAll_wellFormed hw hu).1
    have hb₁ := hunified.all Term.hereditary_plain hproblem hb rfl
    have hw₂ := (hbody.wellFormed hw₁).1
    have hb₂ := hbody.all ((inherited_plain m).kept hd) hgoals hw₁ hb₁
    have hσ₂ := hσ.of_extends (hrest.wellFormed hw₂).2
    have hσ₁ := hσ₂.of_extends (hbody.wellFormed hw₁).2
    have hσ₀ := hσ₁.of_extends (unifyAll_wellFormed hw hu).2
    refine List.forall_mem_cons.2 ⟨?_, ihr hmore hw₂ hb₂ hσ⟩
    -- the instance of the clause that was used
    obtain ⟨read, hread, rfl⟩ := exists_read_of_instantiate hi
    refine .call (τ := fun x => σ (Term.renamedName (Term.freshName k) x)) hc ?_ hread ?_
    · have hsolved : (args.map b.resolveDeep).map (Term.subst σ) =
          (Term.renameAll (Term.freshName k) clause.args).map (Term.subst σ) :=
        hunified.solvedBy hproblem hw hb rfl hσ₁
      rw [Term.map_subst_renameAll, List.map_map] at hsolved
      rw [← hsolved]
      exact List.map_congr_left fun t _ => (hσ₀.subst_resolveDeep t).symm
    · intro g hg
      have hderivable := ihb (fun g hg => (hgoals g hg).1) hw₁ hb₁ hσ₂
      exact (derivable_rename (hclause.kind_of_read hread g hg)).1
        (hderivable _ (List.mem_map_of_mem hg))

/-- For every substitution that satisfies a solution of a run, the goals of the run are derivable from
the clauses. The terms of clauses, goals and bindings are plain: after `X = [_]` the goal `X = [a]`
has a solution in which `X` is bound to `[_]`. -/
theorem solutions_derivable {w : Setting} {s t : Tally} {proof : Proof}
    (hd : w.database.Consists Goal.Logical) (hg : ∀ g ∈ goals, g.Logical) (hb : b.Reachable)
    (h : (w.prover n).proveAll w.limits.proofSteps goals b s = (.ok proof, t)) :
    ∀ b' ∈ proof.solutions, ∀ σ, b'.SatisfiedBy σ → ∀ g ∈ goals, Derivable w.database σ g := by
  intro b' hb' σ hσ
  exact ((answers_of_proveAll h).2 b' hb').derivable hd hg hb.wellFormed hb.plain hσ

/-- With `p(X) :- q(X), !` the goals `p(Y), member(Y, [b, a])` have the solution that binds `Y` to the
renamed `X` and this one to `a`. -/
theorem solutions_derivable_sample :
    (sample [.bang]).database.Consists Goal.Logical ∧
    Derivable (sample [.bang]).database (fun _ => .atom "a") (.call "p" [.var "Y"]) ∧
    Derivable (sample [.bang]).database (fun _ => .atom "a")
      (.member (.var "Y") (.list [.atom "b", .atom "a"])) := by
  have hY : (Term.var "Y").Plain := .var (by decide)
  have hd : (sample [.bang]).database.Consists Goal.Logical := by
    refine sample_consists (List.forall_mem_singleton.2 (.var (by decide))) ?_
    exact List.forall_mem_singleton.2 ⟨_, rfl, trivial⟩
  have hg : ∀ g ∈ [Goal.call "p" [.var "Y"], .member (.var "Y") (.list [.atom "b", .atom "a"])],
      g.Logical := by
    refine List.forall_mem_cons.2 ⟨List.forall_mem_singleton.2 hY, ?_⟩
    exact List.forall_mem_singleton.2 ⟨hY, .list (by simp [Term.Plain.atom])⟩
  have hrun : ((sample [.bang]).prover 2).proveAll (sample [.bang]).limits.proofSteps
      [.call "p" [.var "Y"], .member (.var "Y") (.list [.atom "b", .atom "a"])] .empty
      ⟨0, 0, .empty⟩ =
      (.ok ⟨[(Bindings.empty.extend "Y" (.var "X#1")).extend "X#1" (.atom "a")], false⟩,
        ⟨3, 3, .empty⟩) := by
    rw [proveAll_eq_depthFirst, attempt_eq_recursive]
    rfl
  have hσ : ((Bindings.empty.extend "Y" (.var "X#1")).extend "X#1" (.atom "a")).SatisfiedBy
      fun _ => .atom "a" :=
    ((satisfiedBy_empty _).extend rfl).extend rfl
  have hderivable := solutions_derivable hd hg .empty hrun _ List.mem_cons_self _ hσ
  exact ⟨hd, hderivable _ (by simp), hderivable _ (by simp)⟩

end StackLogic.Horn
