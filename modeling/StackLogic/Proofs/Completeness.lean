import StackLogic.Horn.Reasoner
import StackLogic.Proofs.Renaming

/-!
# Finished searches miss nothing

A search that ends without a failure has tried every clause of every call, if there are no cuts. So
whenever the goals are derivable under a substitution that satisfies the given bindings, some solution
is satisfied by a substitution that agrees with it on all names issued so far. The names of the
clauses used on the way are new, and on them the substitution is chosen as the derivation tells
(`extendTo`); unification commits to nothing that this substitution violates
(`Unifying.exists_of_solvedBy`).
-/

namespace StackLogic.Horn

open Bindings

variable {d : Database} {σ τ : String → Term} {g : Goal} {goals : List Goal} {b b' : Bindings}
  {a c m n : Nat}

/-! ## Bindings and goals of a search -/

/-- Bindings of a search that has used `a` clauses. -/
structure Bindings.Settled (a : Nat) (b : Bindings) : Prop where
  wellFormed : b.WellFormed
  plain : b.All Term.Plain
  issued : b.All (Term.Issued a)

/-- A goal of a search that has used `a` clauses. -/
def Goal.Settled (a : Nat) (g : Goal) : Prop := g.Definite ∧ ∀ t ∈ g.terms, t.Issued a

theorem Bindings.Settled.mono (hb : b.Settled a) (hac : a ≤ c) : b.Settled c where
  wellFormed := hb.wellFormed
  plain := hb.plain
  issued x t hx := ⟨(hb.issued x t hx).1.mono hac, (hb.issued x t hx).2.mono hac⟩

theorem Goal.Settled.mono (hg : g.Settled a) (hac : a ≤ c) : g.Settled c :=
  ⟨hg.1, fun t ht => (hg.2 t ht).mono hac⟩

/-- A settled goal is logical, and `!` is not. -/
theorem Goal.Settled.ne_cut (hg : g.Settled a) : g ≠ .cut := by
  rintro rfl
  exact hg.1

/-- Answers to settled goals bind settled terms. -/
theorem Answers.settled (h : Answers d m goals b b') (hd : d.Consists Goal.Definite)
    (hg : ∀ g ∈ goals, g.Settled m) (hb : b.Settled m) : b'.Settled m where
  wellFormed := (h.wellFormed hb.wellFormed).1
  plain := by
    refine h.all ((inherited_plain m).kept hd.logical) (fun g hmem => ?_) hb.wellFormed hb.plain
    have hlogical := (hg g hmem).1.logical
    exact ⟨hlogical, hlogical.plain⟩
  issued := by
    refine h.all ((inherited_issued m).kept hd.logical) (fun g hmem => ?_) hb.wellFormed hb.issued
    exact ⟨(hg g hmem).1.logical, (hg g hmem).2⟩

/-- Derivable goals stay derivable when the substitution changes on names that are not issued. -/
theorem AgreeTo.derivable (h : AgreeTo a σ τ) (hg : g.Settled a) :
    Derivable d σ g ↔ Derivable d τ g :=
  derivable_congr hg.1.logical fun t ht x hx => h x (hg.2 t ht x hx)

/-! ## Searches that miss nothing -/

/-- One of the bindings is satisfied by a substitution that agrees with `σ` on the names issued. -/
def Covers (a : Nat) (σ : String → Term) (solutions : List Bindings) : Prop :=
  ∃ b ∈ solutions, ∃ σ', b.SatisfiedBy σ' ∧ AgreeTo a σ' σ

/-- A solution covers the substitutions that satisfy it. -/
theorem covers_of_mem {solutions : List Bindings} (hb : b ∈ solutions) (hσ : b.SatisfiedBy σ) :
    Covers a σ solutions :=
  ⟨b, hb, σ, hσ, fun _ _ => rfl⟩

/-- Agreement with a substitution that agrees with `σ` is agreement with `σ`, and more solutions
cover as much. -/
theorem Covers.trans {solutions more : List Bindings} (h : Covers c τ solutions) (hac : a ≤ c)
    (hτ : AgreeTo a τ σ) (hmore : ∀ b ∈ solutions, b ∈ more) : Covers a σ more := by
  obtain ⟨b', hb', σ', hσ', hagree⟩ := h
  exact ⟨b', hmore b' hb', σ', hσ', fun x hx => (hagree x (hx.mono hac)).trans (hτ x hx)⟩

/-- A way to prove goals that misses nothing. -/
def Complete (d : Database) (prove : Goal → Bindings → Search (List Bindings)) : Prop :=
  ∀ ⦃g b s alternatives t σ⦄, prove g b s = (.ok alternatives, t) → g.Settled s.activations →
    b.Settled s.activations → b.SatisfiedBy σ → Derivable d σ g →
    Covers s.activations σ alternatives

variable {prove : Goal → Bindings → Search (List Bindings)} {s t : Tally} {proof : Proof}

/-- Without `!` a search is never cut short. -/
theorem cut_eq_false_of_depthFirst (hg : ∀ g ∈ goals, g.Settled a)
    (h : depthFirst prove goals b s = (.ok proof, t)) : proof.cut = false :=
  Bool.eq_false_iff.2 fun hc => (hg _ (cut_mem_of_depthFirst h hc)).ne_cut rfl

/-- If the proofs of single goals miss nothing, neither do those that the search puts together. -/
theorem Complete.depthFirst (hp : Complete d prove) (ha : Answering d prove)
    (hd : d.Consists Goal.Definite) (h : depthFirst prove goals b s = (.ok proof, t))
    (hg : ∀ g ∈ goals, g.Settled s.activations) (hb : b.Settled s.activations)
    (hσ : b.SatisfiedBy σ) (hgoals : ∀ g ∈ goals, Derivable d σ g) :
    Covers s.activations σ proof.solutions := by
  induction goals generalizing b s t proof σ with
  | nil =>
    obtain ⟨rfl, _⟩ := Search.pure_eq_ok.1 h
    exact covers_of_mem List.mem_cons_self hσ
  | cons g rest ih =>
    obtain ⟨hfirst, hrest⟩ := List.forall_mem_cons.1 hg
    obtain ⟨hderivable, hmore⟩ := List.forall_mem_cons.1 hgoals
    rw [depthFirst_cons hfirst.ne_cut] at h
    obtain ⟨alternatives, u, halt, hgo⟩ := Search.bind_eq_ok.1 h
    obtain ⟨hsu, hanswers⟩ := ha halt
    obtain ⟨b₁, hb₁, σ₁, hσ₁, hagree⟩ := hp halt hfirst hb hσ hderivable
    have hsettled : b₁.Settled u.activations := by
      refine (hanswers b₁ hb₁).settled hd (fun g' hg' => ?_) (hb.mono hsu)
      rw [List.mem_singleton.1 hg']
      exact hfirst.mono hsu
    -- the alternative is tried, maybe after others that have used more clauses
    obtain ⟨s₁, q, t₁, hle, hq, hsolutions⟩ := exists_run_of_untilCut
      (fun _ _ _ _ _ hq => (ha.depthFirst hq).1)
      (fun _ _ _ _ _ hq => cut_eq_false_of_depthFirst hrest hq) hgo hb₁
    have hlater := Nat.le_trans hsu hle
    have hcovers := ih hq (fun g' hg' => (hrest g' hg').mono hlater) (hsettled.mono hle) hσ₁
      fun g' hg' => (hagree.derivable (hrest g' hg')).2 (hmore g' hg')
    exact hcovers.trans hlater hagree hsolutions

theorem Complete.attempt {p : Prover} (hp : Complete d p.prove) (limit : Nat) :
    Complete d (p.attempt limit) := by
  intro g b s alternatives t σ h hg hb hσ hderivable
  unfold Prover.attempt at h
  split at h
  · exact hp (s := { s with steps := s.steps + 1 }) h hg hb hσ hderivable
  · cases h

/-- The goals of the next use of a clause. -/
theorem settled_of_instantiate {clause : Clause} (hc : clause.Consists Goal.Definite) {k : Nat}
    (hi : instantiate k clause.body = .ok goals) : ∀ g ∈ goals, g.Settled k := by
  have hterms := (inherited_issued k).body hc.logical (Nat.le_refl k) hi
  obtain ⟨read, hread, rfl⟩ := exists_read_of_instantiate hi
  intro g' hg'
  refine ⟨?_, (hterms g' hg').2⟩
  obtain ⟨g, hg, rfl⟩ := List.mem_map.1 hg'
  exact (hc.kind_of_read hread g hg).rename k

/-- If an instance of a clause fits a call, the call unifies with the head of the next use, and the
instance satisfies the bindings. -/
theorem exists_unified {args : List Term} {clause : Clause} (hc : clause.Consists Goal.Definite)
    (hargs : ∀ t ∈ args, t.Plain ∧ t.Issued a) (hb : b.Settled a) (hσ : b.SatisfiedBy σ)
    (hhead : args.map (Term.subst σ) = clause.args.map (Term.subst τ)) :
    ∃ b₁, unifyAll (args.map b.resolveDeep)
        (Term.renameAll (Term.freshName (a + 1)) clause.args) b = some b₁ ∧
      b₁.Settled (a + 1) ∧ b₁.SatisfiedBy (extendTo (a + 1) τ σ) := by
  have hagree : AgreeTo a (extendTo (a + 1) τ σ) σ := agreeTo_extendTo (Nat.lt_succ_self a) τ σ
  have hσ₁ := hagree.satisfiedBy hb.issued hσ
  have hb₁ := hb.mono (Nat.le_succ a)
  have hplain := (inherited_plain (a + 1)).call hb.plain hc (Nat.le_refl _)
    fun t ht => (hargs t ht).1
  have hissued := (inherited_issued (a + 1)).call hb₁.issued hc (Nat.le_refl _)
    fun t ht => (hargs t ht).2.mono (Nat.le_succ a)
  -- `τ` makes the head equal to the call, and nothing else has the names it is used for
  have hsolved : (args.map b.resolveDeep).map (Term.subst (extendTo (a + 1) τ σ)) =
      (Term.renameAll (Term.freshName (a + 1)) clause.args).map
        (Term.subst (extendTo (a + 1) τ σ)) := by
    rw [map_subst_extendTo hc.1, ← hhead, List.map_map]
    refine List.map_congr_left fun t ht => ?_
    rw [Function.comp_apply, hσ₁.subst_resolveDeep, hagree.subst_eq (hargs t ht).2]
  have hlen : (args.map b.resolveDeep).length =
      (Term.renameAll (Term.freshName (a + 1)) clause.args).length := by
    simpa using congrArg List.length hsolved
  have hrun := unifying_unifyAll hb.wellFormed hlen
  obtain ⟨b₁, hunified, hσ₂⟩ :=
    hrun.exists_of_solvedBy hplain hb.wellFormed hb.plain hσ₁ hsolved
  refine ⟨b₁, hunified, ⟨(hrun.wellFormed hb.wellFormed hunified).1, ?_, ?_⟩, hσ₂⟩
  · exact hrun.all Term.hereditary_plain hplain hb.plain hunified
  · exact hrun.all (inherited_issued _).element hissued hb₁.issued hunified

/-- The proof of a clause misses no substitution under which its head is the call and its body is
derivable. -/
theorem Complete.proveClause (hp : Complete d prove) (ha : Answering d prove)
    (hd : d.Consists Goal.Definite) {args : List Term} {clause : Clause}
    (hc : clause.Consists Goal.Definite)
    (h : proveClause prove (args.map b.resolveDeep) b clause s = (.ok proof, t))
    (hargs : ∀ t ∈ args, t.Plain ∧ t.Issued s.activations) (hb : b.Settled s.activations)
    (hσ : b.SatisfiedBy σ) (hhead : args.map (Term.subst σ) = clause.args.map (Term.subst τ))
    (hread : clause.body.map BodyGoal.goal = goals.map .ok)
    (hbody : ∀ g ∈ goals, Derivable d τ g) : Covers s.activations σ proof.solutions := by
  obtain ⟨b₁, hunified, hb₁, hσ₁⟩ := exists_unified hc hargs hb hσ hhead
  obtain ⟨k, u, hk, hgo⟩ := Search.bind_eq_ok.1 h
  obtain ⟨rfl, rfl⟩ := Search.activate_eq_ok.1 hk
  rw [hunified] at hgo
  obtain ⟨renamed, v, hof, hrun⟩ := Search.bind_eq_ok.1 hgo
  obtain ⟨hi, rfl⟩ := Search.ofExcept_eq_ok.1 hof
  have hsettled := settled_of_instantiate hc hi
  obtain ⟨read, hread', rfl⟩ := exists_read_of_instantiate hi
  obtain rfl : read = goals :=
    List.map_injective_iff.2 (fun _ _ => Except.ok.inj) (hread'.symm.trans hread)
  have hcovers := hp.depthFirst ha hd hrun hsettled hb₁ hσ₁ fun g' hg' => by
    obtain ⟨g, hg, rfl⟩ := List.mem_map.1 hg'
    exact (derivable_extendTo (hc.kind_of_read hread g hg).logical).2 (hbody g hg)
  exact hcovers.trans (Nat.le_succ _) (agreeTo_extendTo (Nat.lt_succ_self _) τ σ) fun _ hb => hb

theorem cut_eq_false_of_proveClause {args : List Term} {clause : Clause}
    (hc : clause.Consists Goal.Definite)
    (h : proveClause prove args b clause s = (.ok proof, t)) : proof.cut = false := by
  obtain ⟨k, u, _, hgo⟩ := Search.bind_eq_ok.1 h
  cases hu : unifyAll args (Term.renameAll (Term.freshName k) clause.args) b with
  | none =>
    rw [hu] at hgo
    obtain ⟨rfl, _⟩ := Search.pure_eq_ok.1 hgo
    rfl
  | some b₁ =>
    rw [hu] at hgo
    obtain ⟨renamed, v, hof, hrun⟩ := Search.bind_eq_ok.1 hgo
    obtain ⟨hi, _⟩ := Search.ofExcept_eq_ok.1 hof
    exact cut_eq_false_of_depthFirst (settled_of_instantiate hc hi) hrun

/-- A call that comes to its end has tried every clause, so it misses nothing. -/
theorem Complete.call {w : Setting} {inner : Prover} (hp : Complete w.database inner.prove)
    (ha : Answering w.database inner.prove) (hd : w.database.Consists Goal.Definite)
    {name : String} {args : List Term} {alternatives : List Bindings}
    (h : w.call inner name args b s = (.ok alternatives, t))
    (hg : (Goal.call name args).Settled s.activations) (hb : b.Settled s.activations)
    (hσ : b.SatisfiedBy σ) (hderivable : Derivable w.database σ (.call name args)) :
    Covers s.activations σ alternatives := by
  obtain ⟨clause, hmem, τ, goals, hhead, hread, hbody⟩ := derivable_call.1 hderivable
  obtain ⟨s₀, proof, t₀, hproof, rfl, hs, _⟩ := exists_untilCut_of_call h
  have hclauses := hd name
  -- the clause that the derivation uses is tried
  obtain ⟨s₁, q, t₁, hle, hq, hsolutions⟩ := exists_run_of_untilCut
    (fun c hc _ _ _ hq => ((ha.attempt _).proveClause hc hq).1)
    (fun c hc _ _ _ hq => cut_eq_false_of_proveClause (hclauses c hc) hq) hproof hmem
  rw [hs] at hle
  have hargs : ∀ t ∈ args, t.Plain ∧ t.Issued s₁.activations :=
    fun t ht => ⟨hg.1 t ht, (hg.2 t ht).mono hle⟩
  have hcovers := (hp.attempt _).proveClause (ha.attempt _) hd (hclauses clause hmem) hq hargs
    (hb.mono hle) hσ hhead hread hbody
  exact hcovers.trans hle (fun _ _ => rfl) hsolutions

/-- What holds of calls holds of all settled goals. -/
theorem complete_proveWith {call : String → List Term → Bindings → Search (List Bindings)}
    (hcall : ∀ ⦃name args b s alternatives t σ⦄, call name args b s = (.ok alternatives, t) →
      (Goal.call name args).Settled s.activations → b.Settled s.activations →
      b.SatisfiedBy σ → Derivable d σ (.call name args) → Covers s.activations σ alternatives) :
    Complete d (proveWith call) := by
  intro g b s alternatives t σ h hg hb hσ hderivable
  cases g with
  | succeed =>
    obtain ⟨rfl, _⟩ := Search.pure_eq_ok.1 h
    exact covers_of_mem List.mem_cons_self hσ
  | fail => exact absurd hderivable not_derivable_fail
  | unify left right =>
    obtain ⟨rfl, _⟩ := Search.pure_eq_ok.1 h
    obtain ⟨b₁, hu, hσ₁⟩ := (unifying_unify hb.wellFormed left right).exists_of_solvedBy hg.1
      hb.wellFormed hb.plain hσ (derivable_unify.1 hderivable)
    exact covers_of_mem (Option.mem_toList.2 hu) hσ₁
  | call name args => exact hcall h hg hb hσ hderivable
  | newline | cut | write | member | notUnify | is | compare => exact absurd hg.1 id

/-- The prover misses nothing, however deep calls may nest. -/
theorem complete_prover {w : Setting} (hd : w.database.Consists Goal.Definite) (n : Nat) :
    Complete w.database (w.prover n).prove := by
  induction n with
  | zero =>
    refine complete_proveWith fun name args b s alternatives t σ h => ?_
    cases h
  | succ n ih =>
    exact complete_proveWith fun name args b s alternatives t σ h hg hb hσ hderivable =>
      ih.call (answering_prover w n) hd h hg hb hσ hderivable

/-! ## Ground substitutions -/

/-- The term has no variables. -/
def Term.Ground (t : Term) : Prop := t.variableNames = []

theorem Term.Ground.subst_eq {t : Term} (ht : t.Ground) (f : String → Term) : t.subst f = t := by
  have hself : t.subst f = t.subst var := by
    refine subst_congr t fun x hx => ?_
    rw [ht] at hx
    cases hx
  rw [hself, subst_self]

theorem Term.ground_subst {f : String → Term} (hf : ∀ x, (f x).Ground) (t : Term) :
    (t.subst f).Ground := by
  refine List.eq_nil_iff_forall_not_mem.2 fun x hx => ?_
  obtain ⟨y, _, hxy⟩ := (mem_variableNames_subst t).1 hx
  rw [hf y] at hxy
  cases hxy

/-- A satisfying substitution stays one if its variables are replaced. -/
theorem Bindings.SatisfiedBy.comp (h : b.SatisfiedBy σ) (f : String → Term) :
    b.SatisfiedBy fun x => (σ x).subst f := by
  intro x t hx
  show (σ x).subst f = t.subst fun y => (σ y).subst f
  rw [h x t hx, Term.subst_subst]

/-- What a ground substitution is covered by can be taken to be ground. -/
theorem Covers.exists_ground {solutions : List Bindings} (h : Covers a σ solutions)
    (hσ : ∀ x, (σ x).Ground) :
    ∃ b ∈ solutions, ∃ σ', (∀ x, (σ' x).Ground) ∧ b.SatisfiedBy σ' ∧ AgreeTo a σ' σ := by
  obtain ⟨b, hb, σ', hσ', hagree⟩ := h
  refine ⟨b, hb, fun x => (σ' x).subst σ, fun x => Term.ground_subst hσ _, hσ'.comp σ, ?_⟩
  intro x hx
  show (σ' x).subst σ = σ x
  rw [hagree x hx, (hσ x).subst_eq]

/-! ## Answers to queries -/

/-- The line of a solution has an equals sign, which the line `false.` has not. -/
theorem equals_mem_answerLine {names : List String} (hnames : names ≠ []) (b : Bindings) :
    '=' ∈ (answerLine names b).toList := by
  cases names with
  | nil => exact absurd rfl hnames
  | cons name rest =>
    rw [answerLine, List.map_cons]
    cases rest with
    | nil => simp [String.intercalate_singleton]
    | cons other more => simp [String.intercalate_cons_cons]

/-- `false.` is an answer only if there are no solutions. -/
theorem eq_nil_of_false_mem_answer {shown : Nat} {names : List String} {solutions : List Bindings}
    (h : "false." ∈ answer shown names solutions) : solutions = [] := by
  unfold answer at h
  split at h
  next hempty => exact List.isEmpty_iff.1 hempty
  next =>
    exfalso
    split at h
    next =>
      rw [List.mem_singleton] at h
      exact absurd h (by decide)
    next hnames =>
      rcases List.mem_append.1 h with hline | hmore
      · obtain ⟨b, _, hb⟩ := List.mem_map.1 hline
        have hequals := equals_mem_answerLine (mt List.isEmpty_iff.2 hnames) b
        rw [hb] at hequals
        exact absurd hequals (by decide)
      · split at hmore
        next =>
          have hchars := congrArg (fun text => text.toList.head?) (List.mem_singleton.1 hmore)
          simp at hchars
        next => cases hmore

theorem answer_ne_nil (shown : Nat) (names : List String) (solutions : List Bindings) :
    answer shown names solutions ≠ [] := by
  unfold answer
  split
  · simp
  next hsolutions =>
    split
    · simp
    · cases shown with
      | zero =>
        have hpos : 0 < solutions.length :=
          List.length_pos_iff.2 (mt List.isEmpty_iff.2 hsolutions)
        simp [hpos]
      | succ shown =>
        have hne : solutions ≠ [] := mt List.isEmpty_iff.2 hsolutions
        simp [hne]

/-- No failure is reported as `false.`. -/
theorem Failure.message_ne_false (f : Failure) : f.message ≠ "false." := by
  have hhead : f.message.toList.head? ≠ some 'f' := by
    unfold message
    split <;> simp
  intro h
  rw [h] at hhead
  exact hhead (by decide)

/-- If a query reports `false.`, its search has ended without a solution. -/
theorem exists_of_query_false {r : Reasoner}
    (h : (r.query goals).output.lines.getLast? = some ⟨.log, "false."⟩) :
    ∃ s t proof, s.activations = r.activations ∧ r.setting.solve goals s = (.ok proof, t) ∧
      proof.solutions = [] := by
  unfold Reasoner.query at h
  split at h
  next proof t hrun =>
    refine ⟨_, t, proof, rfl, hrun, ?_⟩
    rw [Reasoner.logAll, Output.lines_emitAll, List.getLast?_append_of_ne_nil _
      (by simpa using answer_ne_nil _ _ _)] at h
    obtain ⟨text, htext, heq⟩ := List.mem_map.1 (List.mem_of_getLast? h)
    cases heq
    exact eq_nil_of_false_mem_answer htext
  next f t hrun =>
    rw [Reasoner.report, Reasoner.log, Output.log, Output.lines_emit, List.getLast?_concat] at h
    exact absurd (OutputLine.mk.inj (Option.some.inj h)).2 f.message_ne_false

/-! ## All instances are found -/

/-- Reachable bindings are settled once all their variables are issued. -/
theorem Bindings.Reachable.settled (hb : b.Reachable)
    (hissued : ∀ x, b.Mentions x → IssuedName a x) : b.Settled a where
  wellFormed := hb.wellFormed
  plain := hb.plain
  issued := all_issued.2 hissued

theorem Goal.settled_of_variablesOf (hg : ∀ g ∈ goals, g.Definite)
    (hissued : ∀ x ∈ variablesOf goals, IssuedName a x) : ∀ g ∈ goals, g.Settled a := by
  intro g hmem
  refine ⟨hg g hmem, fun t ht x hx => hissued x ?_⟩
  exact (mem_variablesOf fun g hg' => (hg g hg').logical).2 ⟨g, hmem, t, ht, hx⟩

/-- A search that ends finds every derivable instance of its goals, if the clauses and the goals are
definite and the names of clause variables are new: some solution is satisfied by a substitution that
is the same on the variables of the goals and of the bindings. So a query reports `false.` only if no
instance of it is derivable. -/
theorem solutions_complete {w : Setting} (hd : w.database.Consists Goal.Definite)
    (hg : ∀ g ∈ goals, g.Definite) :
    (∀ n b s proof t, b.Reachable →
      (∀ x, x ∈ Goal.variablesOf goals ∨ b.Mentions x → IssuedName s.activations x) →
      (w.prover n).proveAll w.limits.proofSteps goals b s = (.ok proof, t) →
      ∀ σ : String → Term, (∀ x, (σ x).Ground) → b.SatisfiedBy σ →
        (∀ g ∈ goals, Derivable w.database σ g) →
        ∃ b' ∈ proof.solutions, ∃ σ', (∀ x, (σ' x).Ground) ∧ b'.SatisfiedBy σ' ∧
          ∀ x, x ∈ Goal.variablesOf goals ∨ b.Mentions x → σ' x = σ x) ∧
    (∀ r : Reasoner, r.setting = w →
      (∀ x ∈ Goal.variablesOf goals, IssuedName r.activations x) →
      (r.query goals).output.lines.getLast? = some ⟨.log, "false."⟩ →
      ∀ σ, ¬ ∀ g ∈ goals, Derivable w.database σ g) := by
  have hcovers : ∀ {n b s proof t}, (w.prover n).proveAll w.limits.proofSteps goals b s =
      (.ok proof, t) → (∀ x ∈ Goal.variablesOf goals, IssuedName s.activations x) →
      b.Settled s.activations → ∀ σ, b.SatisfiedBy σ → (∀ g ∈ goals, Derivable w.database σ g) →
      Covers s.activations σ proof.solutions := by
    intro n b s proof t h hissued hb σ hσ hderivable
    rw [proveAll_eq_depthFirst] at h
    exact ((complete_prover hd n).attempt _).depthFirst ((answering_prover w n).attempt _) hd h
      (Goal.settled_of_variablesOf hg hissued) hb hσ hderivable
  refine ⟨?_, ?_⟩
  · intro n b s proof t hb hissued h σ hground hσ hderivable
    have hsettled := hb.settled fun x hx => hissued x (Or.inr hx)
    obtain ⟨b', hb', σ', hground', hσ', hagree⟩ :=
      (hcovers h (fun x hx => hissued x (Or.inl hx)) hsettled σ hσ hderivable).exists_ground hground
    exact ⟨b', hb', σ', hground', hσ', fun x hx => hagree x (hissued x hx)⟩
  · rintro r rfl hissued hfalse σ hderivable
    obtain ⟨s, t, proof, hs, hrun, hnone⟩ := exists_of_query_false hfalse
    rw [← hs] at hissued
    have hempty : Bindings.empty.Settled s.activations :=
      ⟨wellFormed_empty, all_empty _, all_empty _⟩
    obtain ⟨b', hb', _⟩ :=
      hcovers hrun hissued hempty σ (satisfiedBy_empty σ) hderivable
    rw [hnone] at hb'
    cases hb'

/-- With `p(X) :- q(X)` the instance `p(b)` of the query `p(Y)` is found though it is not the first
one, and `p(d)` is reported as `false.`. -/
theorem solutions_complete_sample :
    (∃ proof t, ((sample []).prover 2).proveAll (sample []).limits.proofSteps
        [.call "p" [.var "Y"]] .empty ⟨0, 0, .empty⟩ = (.ok proof, t) ∧
      ∃ b ∈ proof.solutions, ∃ σ, b.SatisfiedBy σ ∧ σ "Y" = .atom "b") ∧
    (Reasoner.query { database := (sample []).database } [.call "p" [.atom "d"]]).output.lines =
      [⟨.log, "false."⟩] ∧
    ∀ σ, ¬ ∀ g ∈ [Goal.call "p" [.atom "d"]], Derivable (sample []).database σ g := by
  have hq : (Goal.call "q" [.var "X"]).Definite :=
    List.forall_mem_singleton.2 (.var (by decide))
  have hd : (sample []).database.Consists Goal.Definite := sample_consists hq (by simp)
  constructor
  · have hg : ∀ g ∈ [Goal.call "p" [.var "Y"]], g.Definite :=
      List.forall_mem_singleton.2 (List.forall_mem_singleton.2 (.var (by decide)))
    have hissued : ∀ x, x ∈ Goal.variablesOf [.call "p" [.var "Y"]] ∨ Bindings.empty.Mentions x →
        IssuedName 0 x := by
      rintro x (hx | ⟨y, t, hy, _⟩)
      · rw [List.mem_singleton.1 hx]
        exact issuedName_of_hash_not_mem (by decide)
      · cases hy
    have hqb : Derivable (sample []).database (fun _ => .atom "b") (.call "q" [.var "X"]) :=
      derivable_call.2 ⟨.fact [.atom "b"], by simp [sample, Database.clauses],
        fun _ => .atom "b", [], rfl, rfl, by simp⟩
    have hpb : Derivable (sample []).database (fun _ => .atom "b") (.call "p" [.var "Y"]) :=
      derivable_call.2 ⟨.rule [.var "X"] [.callQ],
        by simp [sample, Database.clauses, List.lookup_cons],
        fun _ => .atom "b", [.call "q" [.var "X"]], rfl, rfl, List.forall_mem_singleton.2 hqb⟩
    have hrun : ∃ proof t, ((sample []).prover 2).proveAll (sample []).limits.proofSteps
        [.call "p" [.var "Y"]] .empty ⟨0, 0, .empty⟩ = (.ok proof, t) := by
      rw [proveAll_eq_depthFirst, attempt_eq_recursive]
      exact ⟨_, _, rfl⟩
    obtain ⟨proof, t, hproof⟩ := hrun
    obtain ⟨b, hb, σ, _, hσ, hagree⟩ := (solutions_complete hd hg).1 2 .empty ⟨0, 0, .empty⟩ proof t
      .empty hissued hproof (fun _ => .atom "b") (fun _ => rfl) (satisfiedBy_empty _)
      (List.forall_mem_singleton.2 hpb)
    exact ⟨proof, t, hproof, b, hb, σ, hσ, hagree "Y" (Or.inl List.mem_cons_self)⟩
  · have hg : ∀ g ∈ [Goal.call "p" [.atom "d"]], g.Definite :=
      List.forall_mem_singleton.2 (List.forall_mem_singleton.2 .atom)
    have hfalse : (Reasoner.query { database := (sample []).database }
        [.call "p" [.atom "d"]]).output.lines = [⟨.log, "false."⟩] := by
      rw [Reasoner.query, Setting.solve, proveAll_eq_depthFirst, attempt_eq_recursive]
      decide +kernel
    refine ⟨hfalse, (solutions_complete hd hg).2 { database := (sample []).database } rfl ?_ ?_⟩
    · intro x hx
      cases hx
    · rw [hfalse]
      rfl

end StackLogic.Horn
