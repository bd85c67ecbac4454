import StackLogic.Proofs.DepthFirst
import StackLogic.Proofs.Nesting

/-!
# The answers of a search

`Answers` says when bindings are an answer to a list of goals, for one answer at a time: each goal
other than a call extends the bindings as `Yields` tells, and a call uses one of its clauses, renamed
apart by the number of the use. Neither the order of the search nor cuts appear in it.

Every solution of a run is an answer (`answers_of_proveAll`), so what holds for all answers holds for
all solutions of all runs. The first use of it is that solutions are well formed.
-/

namespace StackLogic.Horn

/-- Bindings under which a goal other than a call holds. -/
inductive Yields : Goal → Bindings → Bindings → Prop where
  | succeed {b : Bindings} : Yields .succeed b b
  | cut {b : Bindings} : Yields .cut b b
  | newline {b : Bindings} : Yields .newline b b
  | write {b : Bindings} {t : Term} : Yields (.write t) b b
  | member {b b' : Bindings} {element list item : Term} {items : List Term}
      (hl : b.resolve list = .list items) (hi : item ∈ items)
      (hu : unify element item b = some b') : Yields (.member element list) b b'
  | unify {b b' : Bindings} {left right : Term} (hu : unify left right b = some b') :
      Yields (.unify left right) b b'
  | notUnify {b : Bindings} {left right : Term} (hu : unify left right b = none) :
      Yields (.notUnify left right) b b
  | is {b b' : Bindings} {target : Term} {e : Expr} {n : Number} (he : e.eval b = .ok n)
      (hu : unify target (.num n) b = some b') : Yields (.is target e) b b'
  | compare {b : Bindings} {c : Comparison} {left right : Expr} {l r : Number}
      (hl : left.eval b = .ok l) (hr : right.eval b = .ok r) (hc : c.holds l r = true) :
      Yields (.compare c left right) b b

/-- The second bindings are an answer to the goals under the first ones. Clauses are renamed by
numbers up to `m`. -/
inductive Answers (d : Database) (m : Nat) : List Goal → Bindings → Bindings → Prop where
  | nil {b : Bindings} : Answers d m [] b b
  | builtin {g : Goal} {rest : List Goal} {b b₁ b' : Bindings} (hg : Yields g b b₁)
      (hrest : Answers d m rest b₁ b') : Answers d m (g :: rest) b b'
  | call {name : String} {args : List Term} {rest goals : List Goal} {b b₁ b₂ b' : Bindings}
      {clause : Clause} {k : Nat} (hc : clause ∈ d.clauses name) (hk : k ≤ m)
      (hu : unifyAll (args.map b.resolveDeep)
        (Term.renameAll (Term.freshName k) clause.args) b = some b₁)
      (hi : instantiate k clause.body = .ok goals) (hbody : Answers d m goals b₁ b₂)
      (hrest : Answers d m rest b₂ b') : Answers d m (.call name args :: rest) b b'

variable {d : Database} {m n : Nat} {goals more : List Goal} {b b' b₁ : Bindings}

namespace Answers

/-- Answers that use activations up to a number use them up to a greater one. -/
theorem mono (h : Answers d m goals b b') (hmn : m ≤ n) : Answers d n goals b b' := by
  induction h with
  | nil => exact .nil
  | builtin hg _ ih => exact .builtin hg ih
  | call hc hk hu hi _ _ ihb ihr => exact .call hc (Nat.le_trans hk hmn) hu hi ihb ihr

/-- Answers to goals one after the other are answers to all of them. -/
theorem append (h : Answers d m goals b b₁) (h' : Answers d m more b₁ b') :
    Answers d m (goals ++ more) b b' := by
  induction h with
  | nil => exact h'
  | builtin hg _ ih => exact .builtin hg (ih h')
  | call hc hk hu hi hbody _ _ ih => exact .call hc hk hu hi hbody (ih h')

end Answers

/-! ## Every solution is an answer -/

/-- A way to prove goals that gives nothing but answers. -/
def Answering (d : Database) (prove : Goal → Bindings → Search (List Bindings)) : Prop :=
  ∀ ⦃g b s alternatives t⦄, prove g b s = (.ok alternatives, t) →
    s.activations ≤ t.activations ∧ ∀ b' ∈ alternatives, Answers d t.activations [g] b b'

variable {prove : Goal → Bindings → Search (List Bindings)} {s t : Tally} {proof : Proof}

/-- If the proofs of single goals are answers, so are those that the search puts together. -/
theorem Answering.depthFirst (hp : Answering d prove)
    (h : depthFirst prove goals b s = (.ok proof, t)) :
    s.activations ≤ t.activations ∧
      ∀ b' ∈ proof.solutions, Answers d t.activations goals b b' := by
  induction goals generalizing b s t proof with
  | nil =>
    obtain ⟨rfl, rfl⟩ := Search.pure_eq_ok.1 h
    refine ⟨Nat.le_refl _, fun b' hb' => ?_⟩
    rw [List.mem_singleton.1 hb']
    exact .nil
  | cons g rest ih =>
    by_cases hg : g = .cut
    · subst hg
      obtain ⟨q, u, hq, hdone⟩ := Search.bind_eq_ok.1 h
      obtain ⟨rfl, rfl⟩ := Search.pure_eq_ok.1 hdone
      obtain ⟨hle, hall⟩ := ih hq
      exact ⟨hle, fun b' hb' => .builtin .cut (hall b' hb')⟩
    · rw [depthFirst_cons hg] at h
      obtain ⟨alternatives, u, halt, hrest⟩ := Search.bind_eq_ok.1 h
      obtain ⟨hsu, hanswers⟩ := hp halt
      have hgrows : ∀ b₁ ∈ alternatives, (StackLogic.Horn.depthFirst prove rest b₁).Grows :=
        fun b₁ _ _ _ _ hq => (ih hq).1
      have hut := grows_untilCut hgrows hrest
      refine ⟨Nat.le_trans hsu hut, fun b' hb' => ?_⟩
      obtain ⟨b₁, hb₁, s₁, q, t₁, hq, hmem, hle⟩ := exists_of_mem_untilCut hgrows hrest hb'
      exact ((hanswers b₁ hb₁).mono hut).append (((ih hq).2 b' hmem).mono hle)

/-- A limit only takes proofs away. -/
theorem Answering.attempt {p : Prover} (hp : Answering d p.prove) (limit : Nat) :
    Answering d (p.attempt limit) := by
  intro g b s alternatives t h
  unfold Prover.attempt at h
  split at h
  · exact hp (s := { s with steps := s.steps + 1 }) h
  · cases h

theorem Search.activate_eq_ok {k : Nat} :
    Search.activate s = (.ok k, t) ↔
      k = s.activations + 1 ∧ t = { s with activations := s.activations + 1 } := by
  simp [Search.activate, eq_comm]

theorem Search.ofExcept_eq_ok {α : Type} {x : Except Failure α} {a : α} :
    Search.ofExcept x s = (.ok a, t) ↔ x = .ok a ∧ s = t := by
  cases x with
  | error e => simp [Search.ofExcept, Search.fail]
  | ok c => simp [Search.ofExcept, Search.succeed]

/-- The proof of a clause is one of the call: the head was unified with the arguments, and the body
was proved. -/
theorem Answering.proveClause (hp : Answering d prove) {name : String} {args : List Term}
    {clause : Clause} (hc : clause ∈ d.clauses name)
    (h : proveClause prove (args.map b.resolveDeep) b clause s = (.ok proof, t)) :
    s.activations ≤ t.activations ∧
      ∀ b' ∈ proof.solutions, Answers d t.activations [.call name args] b b' := by
  obtain ⟨k, u, hk, hgo⟩ := Search.bind_eq_ok.1 h
  obtain ⟨rfl, rfl⟩ := Search.activate_eq_ok.1 hk
  cases hu : unifyAll (args.map b.resolveDeep)
      (Term.renameAll (Term.freshName (s.activations + 1)) clause.args) b with
  | none =>
    rw [hu] at hgo
    obtain ⟨rfl, rfl⟩ := Search.pure_eq_ok.1 hgo
    exact ⟨Nat.le_succ _, by simp⟩
  | some unified =>
    rw [hu] at hgo
    obtain ⟨goals, v, hread, hrun⟩ := Search.bind_eq_ok.1 hgo
    obtain ⟨hi, rfl⟩ := Search.ofExcept_eq_ok.1 hread
    obtain ⟨hle, hall⟩ := hp.depthFirst hrun
    refine ⟨Nat.le_trans (Nat.le_succ _) hle, fun b' hb' => ?_⟩
    exact .call hc hle hu hi (hall b' hb') .nil

theorem Search.emitAll_eq_ok {lines : List OutputLine} :
    Search.emitAll lines s = (.ok (), t) ↔ t = { s with output := s.output.emitAll lines } := by
  simp [Search.emitAll, eq_comm]

/-- A call that succeeds has tried its clauses until a cut; reporting it counts nothing. -/
theorem exists_untilCut_of_call {w : Setting} {inner : Prover} {name : String} {args : List Term}
    {alternatives : List Bindings} (h : w.call inner name args b s = (.ok alternatives, t)) :
    ∃ s₁ proof t₁, untilCut
        (proveClause (inner.attempt w.limits.proofSteps) (args.map b.resolveDeep) b)
        (w.database.clauses name) s₁ = (.ok proof, t₁) ∧
      proof.solutions = alternatives ∧ s₁.activations = s.activations ∧
      t₁.activations = t.activations := by
  rw [call_eq_callThrough] at h
  obtain ⟨_, s₁, hentry, hgo⟩ := Search.bind_eq_ok.1 h
  obtain ⟨proof, t₁, hproof, hgo⟩ := Search.bind_eq_ok.1 hgo
  obtain ⟨_, t₂, hexit, hreturn⟩ := Search.bind_eq_ok.1 hgo
  obtain ⟨hsolutions, ht⟩ := Search.pure_eq_ok.1 hreturn
  refine ⟨s₁, proof, t₁, hproof, hsolutions, ?_, ?_⟩
  · rw [Search.emitAll_eq_ok.1 hentry]
  · rw [← ht, Search.emitAll_eq_ok.1 hexit]

/-- The alternatives of a call come from clauses of its predicate. -/
theorem Answering.call {w : Setting} {inner : Prover} (hp : Answering w.database inner.prove)
    {name : String} {args : List Term} {alternatives : List Bindings}
    (h : w.call inner name args b s = (.ok alternatives, t)) :
    s.activations ≤ t.activations ∧
      ∀ b' ∈ alternatives, Answers w.database t.activations [.call name args] b b' := by
  obtain ⟨s₁, proof, t₁, hproof, rfl, hs, ht⟩ := exists_untilCut_of_call h
  rw [← hs, ← ht]
  have hgrows : ∀ clause ∈ w.database.clauses name,
      (StackLogic.Horn.proveClause (inner.attempt w.limits.proofSteps) (args.map b.resolveDeep) b
        clause).Grows := fun clause hc _ _ _ hq => ((hp.attempt _).proveClause hc hq).1
  refine ⟨grows_untilCut hgrows hproof, fun b' hb' => ?_⟩
  obtain ⟨clause, hc, _, q, _, hq, hmem, hle⟩ := exists_of_mem_untilCut hgrows hproof hb'
  exact (((hp.attempt _).proveClause hc hq).2 b' hmem).mono hle

/-- A goal that is settled in one step is its own answer. -/
theorem answers_yields {g : Goal} (h : Yields g b b') : Answers d m [g] b b' :=
  .builtin h .nil

/-- A search that counts nothing gives answers if what it returns are answers. -/
theorem answering_pure {g : Goal} {alternatives found : List Bindings}
    (h : (pure found : Search (List Bindings)) s = (.ok alternatives, t))
    (hfound : ∀ b' ∈ found, Yields g b b') :
    s.activations ≤ t.activations ∧ ∀ b' ∈ alternatives, Answers d t.activations [g] b b' := by
  obtain ⟨rfl, rfl⟩ := Search.pure_eq_ok.1 h
  exact ⟨Nat.le_refl _, fun b' hb' => answers_yields (hfound b' hb')⟩

/-- The same after something was emitted. -/
theorem answering_emit {g : Goal} {alternatives found : List Bindings} {emit : Search Unit}
    (hemit : ∀ s, ∃ output, emit s = (.ok (), { s with output }))
    (h : (emit >>= fun _ => pure found) s = (.ok alternatives, t))
    (hfound : ∀ b' ∈ found, Yields g b b') :
    s.activations ≤ t.activations ∧ ∀ b' ∈ alternatives, Answers d t.activations [g] b b' := by
  obtain ⟨output, hs⟩ := hemit s
  rw [Search.bind_apply, hs] at h
  exact answering_pure (s := { s with output }) h hfound

/-- What holds of calls holds of all goals, since the others give bindings in one step. -/
theorem answering_proveWith {call : String → List Term → Bindings → Search (List Bindings)}
    (hcall : ∀ ⦃name args b s alternatives t⦄, call name args b s = (.ok alternatives, t) →
      s.activations ≤ t.activations ∧
        ∀ b' ∈ alternatives, Answers d t.activations [.call name args] b b') :
    Answering d (proveWith call) := by
  intro g b s alternatives t h
  cases g with
  | succeed => exact answering_pure h (by simpa using Yields.succeed)
  | fail => exact answering_pure h (by simp)
  | newline => exact answering_emit (fun _ => ⟨_, rfl⟩) h (by simpa using Yields.newline)
  | cut => exact answering_pure h (by simpa using Yields.cut)
  | write u => exact answering_emit (fun _ => ⟨_, rfl⟩) h (by simpa using Yields.write)
  | member element list =>
    cases hl : b.resolve list with
    | list items =>
      simp only [proveWith, hl] at h
      refine answering_pure h fun b' hb' => ?_
      obtain ⟨item, hi, hu⟩ := List.exists_of_findSome?_eq_some (Option.mem_toList.1 hb')
      exact .member hl hi hu
    | _ =>
      simp only [proveWith, hl] at h
      exact answering_pure h (by simp)
  | unify left right =>
    exact answering_pure h fun b' hb' => .unify (Option.mem_toList.1 hb')
  | notUnify left right =>
    refine answering_pure h fun b' hb' => ?_
    cases hu : unify left right b with
    | some b₁ => simp [hu] at hb'
    | none =>
      obtain rfl : b' = b := by simpa [hu] using hb'
      exact .notUnify hu
  | is target e =>
    cases he : e.eval b with
    | error err =>
      simp only [proveWith, he] at h
      exact answering_emit (fun _ => ⟨_, rfl⟩) h (by simp)
    | ok n =>
      simp only [proveWith, he] at h
      exact answering_pure h fun b' hb' => .is he (Option.mem_toList.1 hb')
  | compare c left right =>
    cases he : (left.eval b).bind fun l => (right.eval b).map (l, ·) with
    | error err =>
      simp only [proveWith, he] at h
      exact answering_emit (fun _ => ⟨_, rfl⟩) h (by simp)
    | ok values =>
      simp only [proveWith, he] at h
      refine answering_pure h fun b' hb' => ?_
      cases hl : left.eval b with
      | error err => simp [hl, Except.bind] at he
      | ok l =>
        cases hr : right.eval b with
        | error err => simp [hl, hr, Except.bind, Except.map] at he
        | ok r =>
          obtain rfl : (l, r) = values := by simpa [hl, hr, Except.bind, Except.map] using he
          by_cases hc : c.holds l r = true
          · obtain rfl : b' = b := by simpa [hc] using hb'
            exact .compare hl hr hc
          · simp [hc] at hb'
  | call name args => exact hcall h

/-- The prover gives nothing but answers, however deep calls may nest. -/
theorem answering_prover (w : Setting) (n : Nat) : Answering w.database (w.prover n).prove := by
  induction n with
  | zero =>
    refine answering_proveWith fun name args b s alternatives t h => ?_
    cases h
  | succ n ih => exact answering_proveWith fun name args b s alternatives t h => ih.call h

/-- Every solution of a run is an answer. -/
theorem answers_of_proveAll {w : Setting}
    (h : (w.prover n).proveAll w.limits.proofSteps goals b s = (.ok proof, t)) :
    s.activations ≤ t.activations ∧
      ∀ b' ∈ proof.solutions, Answers w.database t.activations goals b b' := by
  rw [proveAll_eq_depthFirst] at h
  exact ((answering_prover w n).attempt _).depthFirst h

/-! ## Solutions are well formed -/

open Bindings

/-- A goal that is settled in one step keeps bindings well formed and only adds to them. -/
theorem Yields.wellFormed {g : Goal} (h : Yields g b b') (hw : b.WellFormed) :
    b'.WellFormed ∧ b.Extends b' := by
  cases h with
  | member _ _ hu => exact unify_wellFormed hw hu
  | unify hu => exact unify_wellFormed hw hu
  | is _ hu => exact unify_wellFormed hw hu
  | _ => exact ⟨hw, Extends.refl b⟩

/-- Answers keep bindings well formed and only add to them. -/
theorem Answers.wellFormed (h : Answers d m goals b b') (hw : b.WellFormed) :
    b'.WellFormed ∧ b.Extends b' := by
  induction h with
  | nil => exact ⟨hw, Extends.refl _⟩
  | builtin hg _ ih =>
    obtain ⟨hw₁, he₁⟩ := hg.wellFormed hw
    obtain ⟨hw₂, he₂⟩ := ih hw₁
    exact ⟨hw₂, he₁.trans he₂⟩
  | call _ _ hu _ _ _ ihb ihr =>
    obtain ⟨hw₁, he₁⟩ := unifyAll_wellFormed hw hu
    obtain ⟨hw₂, he₂⟩ := ihb hw₁
    obtain ⟨hw₃, he₃⟩ := ihr hw₂
    exact ⟨hw₃, he₁.trans (he₂.trans he₃)⟩

/-- Bindings are well formed throughout: the empty ones are, unification and whole searches extend
well-formed bindings to well-formed ones, and under well-formed bindings every loop that follows
bindings ends, on every term and with exactly one result. -/
theorem wellFormed_throughout :
    Bindings.empty.WellFormed ∧
    (∀ left right b b', b.WellFormed → unify left right b = some b' →
      b'.WellFormed ∧ b.Extends b') ∧
    (∀ lefts rights b b', b.WellFormed → unifyAll lefts rights b = some b' →
      b'.WellFormed ∧ b.Extends b') ∧
    (∀ (w : Setting) n goals b s proof t, b.WellFormed →
      (w.prover n).proveAll w.limits.proofSteps goals b s = (.ok proof, t) →
      ∀ b' ∈ proof.solutions, b'.WellFormed ∧ b.Extends b') ∧
    (∀ b : Bindings, b.WellFormed →
      (∀ t u, Resolves b t u ↔ u = b.resolve t) ∧
      (∀ t u, ResolvesDeep b t u ↔ u = b.resolveDeep t) ∧
      (∀ x t found, Occurs b x t found ↔ found = b.occurs x t) ∧
      (∀ left right result,
        Unifying (.pair left right) b result ↔ result = unify left right b) ∧
      (∀ lefts rights result, lefts.length = rights.length →
        (Unifying (.each lefts rights) b result ↔ result = unifyAll lefts rights b))) := by
  refine ⟨wellFormed_empty, fun left right b b' hw h => unify_wellFormed hw h,
    fun lefts rights b b' hw h => unifyAll_wellFormed hw h, ?_, fun b hw => ⟨?_, ?_, ?_, ?_, ?_⟩⟩
  · intro w n goals b s proof t hw h b' hb'
    exact ((answers_of_proveAll h).2 b' hb').wellFormed hw
  · exact fun t u => hw.resolves_iff
  · exact fun t u => hw.resolvesDeep_iff
  · exact fun x t found => hw.occurs_iff
  · exact fun left right result => unifying_pair_iff hw
  · exact fun lefts rights result hlen => unifying_each_iff hw hlen

/-- After `Y = [X]` the goal `X = Y` is refused by the occurs check, several terms are unified at
once, and a call of `p` has a well-formed solution. -/
theorem wellFormed_throughout_sample :
    (∃ b, unify (.var "Y") (.list [.var "X"]) .empty = some b ∧ b.WellFormed ∧
      unify (.var "X") (.var "Y") b = none ∧ Unifying (.pair (.var "X") (.var "Y")) b none) ∧
    (∃ b, unifyAll [.var "X", .var "Y"] [.var "Y", .atom "a"] .empty = some b ∧ b.WellFormed ∧
      Unifying (.each [.var "X", .var "Y"] [.var "Y", .atom "a"]) .empty (some b)) ∧
    ∃ b, (∃ t, ((sample [.bang]).prover 2).proveAll (sample [.bang]).limits.proofSteps
        [.call "p" [.var "Y"]] .empty ⟨0, 0, .empty⟩ = (.ok ⟨[b], false⟩, t)) ∧
      b.WellFormed := by
  obtain ⟨hempty, hunify, hunifyAll, hrun, hloops⟩ := wellFormed_throughout
  refine ⟨⟨_, rfl, ?_, rfl, ?_⟩, ⟨_, rfl, ?_, ?_⟩, ?_⟩
  · exact (hunify (.var "Y") (.list [.var "X"]) _ _ hempty rfl).1
  · have hw := (hunify (.var "Y") (.list [.var "X"]) _ _ hempty rfl).1
    exact ((hloops _ hw).2.2.2.1 _ _ _).2 rfl
  · exact (hunifyAll [.var "X", .var "Y"] [.var "Y", .atom "a"] _ _ hempty rfl).1
  · exact ((hloops _ hempty).2.2.2.2 [.var "X", .var "Y"] [.var "Y", .atom "a"] _ rfl).2 rfl
  · have hsearch : ((sample [.bang]).prover 2).proveAll (sample [.bang]).limits.proofSteps
        [.call "p" [.var "Y"]] .empty ⟨0, 0, .empty⟩ =
        (.ok ⟨[(Bindings.empty.extend "Y" (.var "X#1")).extend "X#1" (.atom "a")], false⟩,
          ⟨2, 3, .empty⟩) := by
      rw [proveAll_eq_depthFirst, attempt_eq_recursive]
      rfl
    exact ⟨_, ⟨_, hsearch⟩, (hrun _ _ _ _ _ _ _ hempty hsearch _ List.mem_cons_self).1⟩

end StackLogic.Horn
