import StackLogic.Proofs.QueryBounds
import StackLogic.Proofs.Wildcards

/-!
# Conjunctions of equations

A conjunction of goals that each unify two terms has a solution if the terms unify one pair after the
other and there are steps for all of them (`finds_conjunction_iff`). If it has, both sides of every
equation match at the end (`unites_of_unifyPairs`), and it has one if some substitution fits both
sides of every equation to one value (`exists_unifyPairs_of_fits`).
-/

namespace StackLogic.Horn

open Bindings Term

/-- The goals that unify the sides of each equation. -/
def conjunction (equations : List (Term × Term)) : List Goal :=
  equations.map fun e => .unify e.1 e.2

/-- Unify the sides of each equation, one after the other. -/
def unifyPairs : List (Term × Term) → Bindings → Option Bindings
  | [], b => some b
  | e :: rest, b => (unify e.1 e.2 b).bind (unifyPairs rest)

/-- The search for the goals finds the bindings. -/
def Prover.Finds (p : Prover) (limit : Nat) (goals : List Goal) (b : Bindings) (s : Tally)
    (solution : Bindings) : Prop :=
  ∃ proof t, p.proveAll limit goals b s = (.ok proof, t) ∧ solution ∈ proof.solutions

variable {w : Setting} {n limit : Nat} {b b' : Bindings} {s : Tally} {left right : Term}
  {e : Term × Term} {equations : List (Term × Term)} {N : Number → Prop} {σ : String → Term}

/-- An equation takes one step and has at most one solution. -/
theorem attempt_unify (h : s.steps < limit) :
    (w.prover n).attempt limit (.unify left right) b s =
      (.ok (unify left right b).toList, { s with steps := s.steps + 1 }) := by
  rw [attempt_of_lt h]
  cases n <;> rfl

theorem depthFirst_unify_cons (h : s.steps < limit) :
    depthFirst ((w.prover n).attempt limit) (conjunction (e :: equations)) b s =
      untilCut (depthFirst ((w.prover n).attempt limit) (conjunction equations))
        (unify e.1 e.2 b).toList { s with steps := s.steps + 1 } := by
  rw [conjunction, List.map_cons, depthFirst_cons (by simp), Search.bind_apply, attempt_unify h]
  rfl

/-- A conjunction of equations has at most one solution. It is found if there are steps for all of
the equations. -/
theorem finds_conjunction_iff :
    (w.prover n).Finds limit (conjunction equations) b s b' ↔
      (∀ i < equations.length, s.steps + i < limit) ∧ unifyPairs equations b = some b' := by
  unfold Prover.Finds
  rw [proveAll_eq_depthFirst]
  induction equations generalizing b s with
  | nil =>
    simp only [conjunction, List.map_nil, depthFirst, unifyPairs, Search.pure_apply]
    constructor
    · rintro ⟨_, _, h, hmem⟩
      cases h
      exact ⟨by simp, congrArg some (List.mem_singleton.1 hmem).symm⟩
    · rintro ⟨-, h⟩
      cases h
      exact ⟨_, _, rfl, List.mem_singleton_self _⟩
  | cons e rest ih =>
    by_cases hlt : s.steps < limit
    · have hsteps : (∀ i < (e :: rest).length, s.steps + i < limit) ↔
          ∀ i < rest.length, s.steps + 1 + i < limit := by
        constructor
        · intro h i hi
          have hnext := h (i + 1) (by simpa using hi)
          omega
        · intro h i hi
          cases i with
          | zero => exact hlt
          | succ i =>
            have hprevious := h i (by simpa using hi)
            omega
      rw [depthFirst_unify_cons hlt, hsteps, unifyPairs]
      cases hunify : unify e.1 e.2 b with
      | none =>
        refine iff_of_false ?_ (by simp)
        rintro ⟨_, _, h, hmem⟩
        cases h
        cases hmem
      | some b₁ =>
        rw [Option.toList_some, untilCut_singleton]
        exact ih
    · refine iff_of_false ?_ fun h => hlt (h.1 0 (by simp))
      rintro ⟨_, _, h, -⟩
      rw [conjunction, List.map_cons, depthFirst_cons (by simp), Search.bind_apply,
        attempt_of_le (Nat.not_lt.1 hlt)] at h
      cases h

/-- Equations are solved one after the other. -/
theorem unifyPairs_cons (h : unifyPairs (e :: equations) b = some b') :
    ∃ b₁, unify e.1 e.2 b = some b₁ ∧ unifyPairs equations b₁ = some b' :=
  Option.bind_eq_some_iff.1 h

/-- Solving equations keeps bindings well formed and only adds to them. -/
theorem unifyPairs_wellFormed (h : unifyPairs equations b = some b') (hb : b.WellFormed) :
    b'.WellFormed ∧ b.Extends b' := by
  induction equations generalizing b with
  | nil =>
    cases h
    exact ⟨hb, Extends.refl _⟩
  | cons e rest ih =>
    obtain ⟨b₁, hfirst, hrest⟩ := unifyPairs_cons h
    obtain ⟨hb₁, he₁⟩ := unify_wellFormed hb hfirst
    obtain ⟨hb', he'⟩ := ih hrest hb₁
    exact ⟨hb', he₁.trans he'⟩

theorem unifyPairs_all {Q : Term → Prop} (h : unifyPairs equations b = some b')
    (hQ : Hereditary Q) (hb : b.WellFormed) (hall : b.All Q)
    (hequations : ∀ e ∈ equations, Q e.1 ∧ Q e.2) : b'.All Q := by
  induction equations generalizing b with
  | nil =>
    cases h
    exact hall
  | cons e rest ih =>
    obtain ⟨b₁, hfirst, hrest⟩ := unifyPairs_cons h
    have hrun := unifying_unify hb e.1 e.2
    rw [hfirst] at hrun
    obtain ⟨hhead, htail⟩ := List.forall_mem_cons.1 hequations
    exact ih hrest (unify_wellFormed hb hfirst).1 (hrun.all hQ hhead hall rfl) htail

/-- At the end, both sides of every equation match. -/
theorem unites_of_unifyPairs (h : unifyPairs equations b = some b') (hb : b.WellFormed) :
    ∀ e ∈ equations, b'.Unites e.1 e.2 := by
  induction equations generalizing b with
  | nil => exact nofun
  | cons e rest ih =>
    obtain ⟨b₁, hfirst, hrest⟩ := unifyPairs_cons h
    have hrun := unifying_unify hb e.1 e.2
    rw [hfirst] at hrun
    have hb₁ := (unify_wellFormed hb hfirst).1
    have hunites : b₁.Unites e.1 e.2 := hrun.unitedBy hb rfl
    obtain ⟨hb', he'⟩ := unifyPairs_wellFormed hrest hb₁
    exact List.forall_mem_cons.2 ⟨hunites.of_extends hb' he', ih hrest hb₁⟩

/-- Equations have a solution if a substitution fits both sides of each of them to one value. -/
theorem exists_unifyPairs_of_fits (hN : Number.Comparable N) (hσ : Filling N σ)
    (hb : b.WellFormed) (hvalued : b.All (Valued N)) (hfit : b.FitBy σ)
    (hequations : ∀ e ∈ equations, e.1.Valued N ∧ e.2.Valued N)
    (hfits : ∀ e ∈ equations, Fits N σ e.1 e.2) : ∃ b', unifyPairs equations b = some b' := by
  induction equations generalizing b with
  | nil => exact ⟨b, rfl⟩
  | cons e rest ih =>
    obtain ⟨hhead, htail⟩ := List.forall_mem_cons.1 hequations
    obtain ⟨hfitHead, hfitTail⟩ := List.forall_mem_cons.1 hfits
    have hrun := unifying_unify hb e.1 e.2
    obtain ⟨b₁, hb₁, hfit₁⟩ := hrun.exists_of_fits hN hσ hhead hb hvalued hfit hfitHead
    rw [hb₁] at hrun
    obtain ⟨b', hb'⟩ := ih (unify_wellFormed hb hb₁).1
      (hrun.all hereditary_valued hhead hvalued rfl) hfit₁ htail hfitTail
    refine ⟨b', ?_⟩
    rw [unifyPairs, hb₁]
    exact hb'

end StackLogic.Horn
