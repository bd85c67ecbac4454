import StackLogic.Proofs.DepthFirst
import StackLogic.Proofs.Reading
import StackLogic.Proofs.Relabelling
import Mathlib.Data.List.DropRight

/-!
# Answers do not depend on earlier queries

A search that starts after more clauses have been used gives other names to the variables of
clauses, and nothing else changes. `Mirrors` compares two searches of which the second one is `d`
clauses ahead: they take the same steps and fail alike, and the results of the second are those of
the first with other names. Each layer of the search has this property, and it is kept by going on
with a result.

The other names are those that `Relabelling.shift d` gives. The variables of a query keep their
names, and an answer shows other variables as `_`, so the answers are the same.
-/

namespace StackLogic.Horn

/-! ## Searches that are ahead of others -/

/-- The second tally has counted as many steps and `d` more clauses. What was emitted may differ. -/
structure Tally.Ahead (d : Nat) (s s' : Tally) : Prop where
  steps : s'.steps = s.steps
  activations : s'.activations = s.activations + d

namespace Search

variable {α β γ δ : Type} {d : Nat}

/-- Started ahead of the first search, the second one ends as the first does, with its result
changed by `f`, and as far ahead. -/
def Mirrors (d : Nat) (f : α → β) (x : Search α) (y : Search β) : Prop :=
  ∀ ⦃s s'⦄, Tally.Ahead d s s' → (y s').1 = (x s).1.map f ∧ Tally.Ahead d (x s).2 (y s').2

theorem mirrors_pure (f : α → β) (a : α) : Mirrors d f (pure a) (pure (f a)) :=
  fun _ _ h => ⟨rfl, h⟩

theorem mirrors_fail (f : α → β) (e : Failure) : Mirrors d f (fail e) (fail e) :=
  fun _ _ h => ⟨rfl, h⟩

theorem mirrors_ofExcept (f : α → β) (x : Except Failure α) :
    Mirrors d f (ofExcept x) (ofExcept (x.map f)) := by
  cases x with
  | error e => exact mirrors_fail f e
  | ok a => exact mirrors_pure f a

theorem mirrors_activate : Mirrors d (· + d) activate activate := by
  intro s s' h
  refine ⟨?_, h.steps, ?_⟩
  · show Except.ok (s'.activations + 1) = Except.ok (s.activations + 1 + d)
    rw [h.activations, Nat.add_right_comm]
  · show s'.activations + 1 = s.activations + 1 + d
    rw [h.activations, Nat.add_right_comm]

/-- Whatever two searches emit, one stays as far ahead of the other. -/
theorem mirrors_emit {x y : Search Unit} (hx : ∀ s, ∃ output, x s = (.ok (), { s with output }))
    (hy : ∀ s, ∃ output, y s = (.ok (), { s with output })) : Mirrors d id x y := by
  intro s s' h
  obtain ⟨output, hs⟩ := hx s
  obtain ⟨output', hs'⟩ := hy s'
  rw [hs, hs']
  exact ⟨rfl, h.steps, h.activations⟩

/-- Searches that mirror each other do so one after the other. -/
theorem mirrors_bind {f : α → β} {g : γ → δ} {x : Search α} {y : Search β} {k : α → Search γ}
    {l : β → Search δ} (hx : Mirrors d f x y) (hk : ∀ a, Mirrors d g (k a) (l (f a))) :
    Mirrors d g (x >>= k) (y >>= l) := by
  intro s s' h
  obtain ⟨hresult, hahead⟩ := hx h
  rw [bind_apply, bind_apply]
  rcases hxs : x s with ⟨e | a, t⟩ <;> rcases hys : y s' with ⟨e' | c, t'⟩ <;>
    rw [hxs, hys] at hresult hahead
  · cases hresult
    exact ⟨rfl, hahead⟩
  · cases hresult
  · cases hresult
  · cases hresult
    exact hk a hahead

end Search

open Search

/-! ## The layers of a search -/

/-- Rename the variables in all solutions. -/
def Proof.rename (ρ : Relabelling) (proof : Proof) : Proof :=
  { solutions := proof.solutions.map (Bindings.rename ρ), cut := proof.cut }

variable {ρ : Relabelling} {d : Nat} {prove : Goal → Bindings → Search (List Bindings)}

theorem mirrors_followedBy (proof : Proof) {more more' : Search Proof}
    (hmore : Mirrors d (Proof.rename ρ) more more') :
    Mirrors d (Proof.rename ρ) (proof.followedBy more) ((proof.rename ρ).followedBy more') := by
  cases hc : proof.cut with
  | true =>
    have hc' : (proof.rename ρ).cut = true := hc
    rw [Proof.followedBy_of_cut hc, Proof.followedBy_of_cut hc']
    exact mirrors_pure _ proof
  | false =>
    have hc' : (proof.rename ρ).cut = false := hc
    rw [Proof.followedBy_of_not_cut hc, Proof.followedBy_of_not_cut hc']
    refine mirrors_bind hmore fun rest => ?_
    have happend : Proof.rename ρ ⟨proof.solutions ++ rest.solutions, rest.cut⟩ =
        ⟨(proof.rename ρ).solutions ++ (rest.rename ρ).solutions, (rest.rename ρ).cut⟩ := by
      simp [Proof.rename]
    rw [← happend]
    exact mirrors_pure _ _

/-- Proofs that mirror each other one by one are cut short at the same place. -/
theorem mirrors_untilCut {α β : Type} {f : α → β} {run : α → Search Proof}
    {run' : β → Search Proof} (hrun : ∀ a, Mirrors d (Proof.rename ρ) (run a) (run' (f a)))
    (as : List α) : Mirrors d (Proof.rename ρ) (untilCut run as) (untilCut run' (as.map f)) := by
  induction as with
  | nil => exact mirrors_pure (Proof.rename ρ) ⟨[], false⟩
  | cons a more ih => exact mirrors_bind (hrun a) fun proof => mirrors_followedBy proof ih

/-- Renamed goals under renamed bindings are proved alike. -/
def Mirroring (ρ : Relabelling) (d : Nat) (prove : Goal → Bindings → Search (List Bindings)) :
    Prop :=
  ∀ g b, Mirrors d (List.map (Bindings.rename ρ)) (prove g b) (prove (g.rename ρ) (b.rename ρ))

/-- If the proofs of single goals mirror each other, so do those that the search puts together. -/
theorem Mirroring.depthFirst (hp : Mirroring ρ d prove) (goals : List Goal) (b : Bindings) :
    Mirrors d (Proof.rename ρ) (depthFirst prove goals b)
      (depthFirst prove (goals.map (Goal.rename ρ)) (b.rename ρ)) := by
  induction goals generalizing b with
  | nil => exact mirrors_pure (Proof.rename ρ) ⟨[b], false⟩
  | cons g rest ih =>
    by_cases hg : g = .cut
    · rw [hg]
      refine mirrors_bind (ih b) fun proof => ?_
      exact mirrors_pure (Proof.rename ρ) { proof with cut := true }
    · have hg' : g.rename ρ ≠ .cut := by cases g <;> simp_all [Goal.rename]
      rw [List.map_cons, depthFirst_cons hg, depthFirst_cons hg']
      exact mirrors_bind (hp g b) fun alternatives => mirrors_untilCut ih alternatives

/-- The relabelling gives to the variables of the `k`-th use of a clause the names of the use that
is `d` later. -/
def Relabelling.Shifts (ρ : Relabelling) (d : Nat) : Prop :=
  ∀ k x, ρ (Term.freshName k x) = Term.freshName (k + d) x

/-- A body that is used later is the renamed body. -/
theorem Relabelling.Shifts.instantiate (hρ : ρ.Shifts d) (k : Nat) (body : List BodyGoal) :
    instantiate (k + d) body = (instantiate k body).map (List.map (Goal.rename ρ)) := by
  induction body with
  | nil => rfl
  | cons part rest ih =>
    rw [instantiate_cons, instantiate_cons]
    cases part.goal with
    | error e => rfl
    | ok g =>
      rw [ih]
      cases StackLogic.Horn.instantiate k rest with
      | error e => rfl
      | ok goals =>
        show Except.ok _ = Except.ok _
        rw [List.map_cons, g.rename_rename (hρ k)]

/-- The proof of a clause that is used later is the renamed proof. -/
theorem Mirroring.proveClause (hp : Mirroring ρ d prove) (hρ : ρ.Shifts d) (args : List Term)
    (b : Bindings) (clause : Clause) :
    Mirrors d (Proof.rename ρ) (proveClause prove args b clause)
      (proveClause prove (args.map (Term.rename ρ)) (b.rename ρ) clause) := by
  -- the second search gets the number `k + d` where the first one gets `k`
  refine mirrors_bind mirrors_activate fun k => ?_
  rw [← Term.renameAll_rename (hρ k), unifyAll_rename]
  cases unifyAll args (Term.renameAll (Term.freshName k) clause.args) b with
  | none => exact mirrors_pure (Proof.rename ρ) ⟨[], false⟩
  | some unified =>
    show Mirrors d (Proof.rename ρ) _ (Search.ofExcept (instantiate (k + d) clause.body) >>= _)
    rw [hρ.instantiate]
    exact mirrors_bind (mirrors_ofExcept _ _) fun goals => hp.depthFirst goals unified

theorem mirrors_emitAll (lines lines' : List OutputLine) :
    Mirrors d id (emitAll lines) (emitAll lines') :=
  mirrors_emit (fun _ => ⟨_, rfl⟩) fun _ => ⟨_, rfl⟩

/-- A call mirrors the renamed call: its lines may differ, the clauses it tries do not. -/
theorem Mirroring.callThrough (hp : Mirroring ρ d prove) (hρ : ρ.Shifts d) (w : Setting)
    (name : String) (args : List Term) (b : Bindings) :
    Mirrors d (List.map (Bindings.rename ρ)) (w.callThrough prove name args b)
      (w.callThrough prove name (args.map (Term.rename ρ)) (b.rename ρ)) := by
  have hvalues : (args.map (Term.rename ρ)).map (b.rename ρ).resolveDeep =
      (args.map b.resolveDeep).map (Term.rename ρ) := by
    rw [List.map_map, List.map_map]
    exact List.map_congr_left fun t _ => b.resolveDeep_rename ρ t
  unfold Setting.callThrough
  simp only [hvalues]
  refine mirrors_bind (mirrors_emitAll _ _) fun _ => ?_
  have hclauses := mirrors_untilCut (f := id)
    (hp.proveClause hρ (args.map b.resolveDeep) b) (w.database.clauses name)
  rw [List.map_id] at hclauses
  refine mirrors_bind hclauses fun proof => ?_
  exact mirrors_bind (mirrors_emitAll _ _) fun _ => mirrors_pure _ proof.solutions

theorem mirrors_counted {limit : Nat} (hp : Mirroring ρ d prove) :
    Mirroring ρ d (counted limit prove) := by
  intro g b s s' h
  have hnext : Tally.Ahead d { s with steps := s.steps + 1 } { s' with steps := s'.steps + 1 } :=
    ⟨congrArg (· + 1) h.steps, h.activations⟩
  unfold counted
  simp only [h.steps] at hnext ⊢
  split
  · exact hp g b hnext
  · exact ⟨rfl, hnext⟩

/-- What unification gives is renamed. -/
theorem mirrors_toList (found : Option Bindings) :
    Mirrors d (List.map (Bindings.rename ρ)) (pure found.toList)
      (pure (found.map (Bindings.rename ρ)).toList) := by
  cases found with
  | none => exact mirrors_pure _ []
  | some b => exact mirrors_pure _ [b]

theorem mirrors_arithmeticFailure (e e' : EvalError) :
    Mirrors d (List.map (Bindings.rename ρ)) (arithmeticFailure e) (arithmeticFailure e') :=
  mirrors_bind (mirrors_emit (fun _ => ⟨_, rfl⟩) fun _ => ⟨_, rfl⟩) fun _ => mirrors_pure _ []

/-- Two results with the same value, if any, are both values or both errors. -/
theorem eq_ok_or_error_of_toOption {ε α : Type} {x y : Except ε α} (h : y.toOption = x.toOption) :
    (∃ a, x = .ok a ∧ y = .ok a) ∨ ∃ e e', x = .error e ∧ y = .error e' := by
  cases x <;> cases y <;> simp_all [Except.toOption]

theorem findSome?_unify_rename (ρ : Relabelling) (element : Term) (b : Bindings)
    (items : List Term) :
    (items.map (Term.rename ρ)).findSome? (unify (element.rename ρ) · (b.rename ρ)) =
      (items.findSome? (unify element · b)).map (Bindings.rename ρ) := by
  induction items with
  | nil => rfl
  | cons item rest ih =>
    rw [List.map_cons, List.findSome?_cons, List.findSome?_cons, unify_rename]
    cases unify element item b with
    | none => exact ih
    | some b' => rfl

/-- What holds of calls holds of all goals. -/
theorem mirroring_proveWith {call : String → List Term → Bindings → Search (List Bindings)}
    (hcall : ∀ name args b, Mirrors d (List.map (Bindings.rename ρ)) (call name args b)
      (call name (args.map (Term.rename ρ)) (b.rename ρ))) : Mirroring ρ d (proveWith call) := by
  intro g b
  have hsame : Mirrors d (List.map (Bindings.rename ρ)) (pure [b]) (pure [b.rename ρ]) :=
    mirrors_pure _ [b]
  have hnone : Mirrors d (List.map (Bindings.rename ρ)) (pure []) (pure []) := mirrors_pure _ []
  cases g with
  | succeed | cut => exact hsame
  | fail => exact hnone
  | newline | write =>
    -- what is written may show renamed variables, but a tally that is ahead may differ in output
    exact mirrors_bind (mirrors_emit (fun _ => ⟨_, rfl⟩) fun _ => ⟨_, rfl⟩) fun _ => hsame
  | member element list =>
    simp only [Goal.rename, proveWith, Bindings.resolve_rename]
    cases b.resolve list with
    | list items =>
      rw [Term.rename_list]
      show Mirrors d _ _ (pure (Option.toList _))
      rw [findSome?_unify_rename]
      exact mirrors_toList _
    | _ => exact hnone
  | unify left right =>
    simp only [Goal.rename, proveWith, unify_rename]
    exact mirrors_toList _
  | notUnify left right =>
    simp only [Goal.rename, proveWith, unify_rename, Option.isSome_map]
    split
    · exact hnone
    · exact hsame
  | is target e =>
    simp only [Goal.rename, proveWith]
    rcases eq_ok_or_error_of_toOption (e.eval_rename ρ b) with ⟨n, hx, hy⟩ | ⟨err, err', hx, hy⟩
    · rw [hx, hy]
      have hu := unify_rename ρ target (.num n) b
      rw [Term.rename_num] at hu
      simp only [hu]
      exact mirrors_toList _
    · rw [hx, hy]
      exact mirrors_arithmeticFailure err err'
  | compare c left right =>
    have heq : (((left.rename ρ).eval (b.rename ρ)).bind fun l =>
          ((right.rename ρ).eval (b.rename ρ)).map (l, ·)).toOption =
        ((left.eval b).bind fun l => (right.eval b).map (l, ·)).toOption := by
      simp only [toOption_bind, toOption_map, Expr.eval_rename]
    simp only [Goal.rename, proveWith]
    rcases eq_ok_or_error_of_toOption heq with ⟨⟨l, r⟩, hx, hy⟩ | ⟨err, err', hx, hy⟩
    · rw [hx, hy]
      show Mirrors d _ (pure (if _ then _ else _)) (pure (if _ then _ else _))
      split
      · exact hsame
      · exact hnone
    · rw [hx, hy]
      exact mirrors_arithmeticFailure err err'
  | call name args =>
    simp only [Goal.rename, proveWith, Term.renameAll_eq_map]
    exact hcall name args b

/-- The whole search mirrors a search with later activations. -/
theorem mirroring_recursive (hρ : ρ.Shifts d) (w : Setting) (n : Nat) :
    Mirroring ρ d (w.recursive n) := by
  induction n with
  | zero => exact mirrors_counted (mirroring_proveWith fun _ _ _ => mirrors_fail _ _)
  | succ n ih => exact mirrors_counted (mirroring_proveWith (ih.callThrough hρ w))

/-! ## Later uses of clauses -/

open Classical in
/-- The name that the variable of a used clause has in the use that is `d` later. -/
noncomputable def shiftName (d : Nat) (x : String) : String :=
  if h : ∃ use : Nat × String, x = Term.freshName use.1 use.2 then
    Term.freshName (h.choose.1 + d) h.choose.2
  else x

/-- A fresh name becomes that of the later activation. -/
theorem shiftName_freshName (d k : Nat) (x : String) :
    shiftName d (Term.freshName k x) = Term.freshName (k + d) x := by
  have h : ∃ use : Nat × String, Term.freshName k x = Term.freshName use.1 use.2 := ⟨(k, x), rfl⟩
  obtain ⟨hk, hx⟩ := Term.freshName_inj h.choose_spec
  rw [shiftName, dif_pos h, ← hk, ← hx]

theorem shiftName_eq_self (d : Nat) {x : String} (h : ∀ k y, x ≠ Term.freshName k y) :
    shiftName d x = x := by
  rw [shiftName, dif_neg]
  rintro ⟨use, hx⟩
  exact h use.1 use.2 hx

theorem ne_freshName_of_hash_not_mem {x : String} (h : '#' ∉ x.toList) (k : Nat) (y : String) :
    x ≠ Term.freshName k y := by
  rintro rfl
  exact h (Term.hash_mem_freshName k y)

/-- Different variables stay different. -/
theorem shiftName_injective {d : Nat} {x y : String} (h : shiftName d x = shiftName d y) :
    x = y := by
  by_cases hx : ∃ k z, x = Term.freshName k z <;> by_cases hy : ∃ k z, y = Term.freshName k z
  · obtain ⟨j, u, rfl⟩ := hx
    obtain ⟨k, v, rfl⟩ := hy
    rw [shiftName_freshName, shiftName_freshName] at h
    obtain ⟨hjk, huv⟩ := Term.freshName_inj h
    rw [Nat.add_right_cancel hjk, huv]
  · push Not at hy
    obtain ⟨j, u, rfl⟩ := hx
    rw [shiftName_freshName, shiftName_eq_self d hy] at h
    exact absurd h.symm (hy _ _)
  · push Not at hx
    obtain ⟨k, v, rfl⟩ := hy
    rw [shiftName_freshName, shiftName_eq_self d hx] at h
    exact absurd h (hx _ _)
  · push Not at hx hy
    rwa [shiftName_eq_self d hx, shiftName_eq_self d hy] at h

/-- Give to the variables of used clauses the names of uses that are `d` later. -/
noncomputable def Relabelling.shift (d : Nat) : Relabelling where
  toFun := shiftName d
  injective := shiftName_injective
  anonymous := shiftName_eq_self d (ne_freshName_of_hash_not_mem (by decide))

/-- Shifting all fresh names turns each use of a clause into a later one. -/
theorem Relabelling.shifts_shift (d : Nat) : (Relabelling.shift d).Shifts d :=
  fun k x => shiftName_freshName d k x

/-- Names that can be written stay as they are. -/
theorem Relabelling.shift_eq_self (d : Nat) {x : String} (h : '#' ∉ x.toList) :
    Relabelling.shift d x = x :=
  shiftName_eq_self d (ne_freshName_of_hash_not_mem h)

/-! ## Answers -/

/-- Free variables are shown without their names. -/
theorem hideFree_rename (ρ : Relabelling) (t : Term) : hideFree (t.rename ρ) = hideFree t :=
  t.subst_rename ρ _

theorem answerLine_rename {names : List String} (hnames : ∀ x ∈ names, ρ x = x) (b : Bindings) :
    answerLine names (b.rename ρ) = answerLine names b := by
  unfold answerLine
  congr 1
  refine List.map_congr_left fun x hx => ?_
  have hvar : Term.var x = (Term.var x).rename ρ := by rw [Term.rename_var, hnames x hx]
  rw [hvar, Bindings.resolveDeep_rename, hideFree_rename, ← hvar]

/-- The answer to a query shows the variables of the query only, which keep their names. -/
theorem answer_rename {names : List String} (hnames : ∀ x ∈ names, ρ x = x) (shown : Nat)
    (solutions : List Bindings) :
    answer shown names (solutions.map (Bindings.rename ρ)) = answer shown names solutions := by
  simp only [answer, List.isEmpty_map, List.length_map, ← List.map_take, List.map_map]
  have hline : answerLine names ∘ Bindings.rename ρ = answerLine names :=
    funext (answerLine_rename hnames)
  rw [hline]

/-! ## Query lines -/

theorem trimEnd_trimEnd (cs : List Char) : Text.trimEnd (Text.trimEnd cs) = Text.trimEnd cs := by
  simp [Text.trimEnd, List.dropWhile_idempotent]

theorem trimEnd_cons {c : Char} (h : Text.isBlank c = false) (rest : List Char) :
    Text.trimEnd (c :: rest) = c :: Text.trimEnd rest := by
  simp [Text.trimEnd, List.dropWhile_append, h]

theorem trim_trim (cs : List Char) : Text.trim (Text.trim cs) = Text.trim cs := by
  have hstart : (Text.trim cs).dropWhile Text.isBlank = Text.trim cs := by
    unfold Text.trim
    cases hcs : cs.dropWhile Text.isBlank with
    | nil => rfl
    | cons c rest =>
      have hfirst := List.dropWhile_get_zero_not (p := Text.isBlank) cs (by simp [hcs])
      have hc : Text.isBlank c = false := by simpa [hcs] using hfirst
      rw [trimEnd_cons hc, List.dropWhile_cons_of_neg (by simp [hc])]
  rw [Text.trim, hstart, Text.trim, trimEnd_trimEnd]

/-- The text of the query on a line: what follows the mark. -/
def Source.queryText (line : String) : String :=
  String.ofList ((Text.trim (stripComment line.toList)).drop 2)

/-- What a query comes to. -/
structure Verdict where
  /-- What is told when the search is over. -/
  lines : List String
  /-- How many steps were taken. -/
  steps : Nat
  deriving DecidableEq

namespace Reasoner

/-- What the search for the goals of a query gives and counts. -/
def search (r : Reasoner) (goals : List Goal) : Except Failure Proof × Tally :=
  r.setting.solve goals { steps := 0, activations := r.activations, output := r.output }

/-- What is told when the search is over. -/
def conclusion (r : Reasoner) (goals : List Goal) : List String :=
  match (r.search goals).1 with
  | .ok proof => answer r.limits.shown (answerVariables goals) proof.solutions
  | .error f => [f.message]

/-- The final lines of a query and the number of steps it takes. A text that cannot be read takes
none. -/
def verdict (r : Reasoner) (text : String) : Verdict :=
  match readQuery text with
  | .ok goals => { lines := r.conclusion goals, steps := (r.search goals).2.steps }
  | .error f => { lines := [f.message], steps := 0 }

/-- The reasoner when the search for a query is over and nothing is told yet. -/
def searched (r : Reasoner) (text : String) : Reasoner :=
  match readQuery text with
  | .ok goals => r.withTally (r.search goals).2
  | .error _ => r

theorem search_eq_depthFirst (r : Reasoner) (goals : List Goal) :
    r.search goals = depthFirst (r.setting.recursive r.limits.proofDepth) goals .empty
      { steps := 0, activations := r.activations, output := r.output } := by
  rw [search, Setting.solve, proveAll_eq_depthFirst, attempt_eq_recursive]
  rfl

/-- A query reports its conclusion at the end and keeps the tally of its search. -/
theorem query_eq_logAll (r : Reasoner) (goals : List Goal) :
    r.query goals = (r.withTally (r.search goals).2).logAll (r.conclusion goals) := by
  unfold query conclusion search
  split
  next proof s h => rw [h]
  next f s h =>
    rw [h]
    rfl

/-- A query line ends with the lines of its verdict. -/
theorem runQuery_eq_logAll (r : Reasoner) (text : String) :
    r.runQuery text = (r.searched text).logAll (r.verdict text).lines := by
  unfold runQuery searched verdict
  cases readQuery text with
  | error f => rfl
  | ok goals => exact r.query_eq_logAll goals

/-- A line that is a query is run as one. -/
theorem execute_of_classify_query (r : Reasoner) {line : String}
    (h : Source.classify (Source.stripComment line.toList) = .query) :
    (r.execute line).1 = r.runQuery (Source.queryText line) := by
  have hkind : Source.classify (Text.trim (Source.stripComment line.toList)) = .query := by
    unfold Source.classify at h ⊢
    rwa [trim_trim]
  have harrow : Source.splitAt? Source.arrow none (Text.trim (Source.stripComment line.toList)) =
      none := by
    simp only [Source.classify] at h
    split at h
    · cases h
    next hnone => simpa using hnone
  unfold execute Source.queryText
  cases hline : Text.trim (Source.stripComment line.toList) with
  | nil =>
    rw [hline] at hkind
    exact absurd hkind (by decide)
  | cons c rest =>
    rw [hline] at hkind harrow
    show r.use (c :: rest) = _
    unfold use
    rw [harrow, hkind]

theorem execute_of_readQuery (r : Reasoner) {line : String}
    (h : Source.classify (Source.stripComment line.toList) = .query) {goals : List Goal}
    (hread : readQuery (Source.queryText line) = .ok goals) :
    (r.execute line).1 = r.query goals := by
  rw [r.execute_of_classify_query h]
  unfold runQuery
  rw [hread]

variable {r₁ r₂ : Reasoner}

/-- A reasoner that has used more clauses searches alike, with later names and as many steps. -/
theorem search_of_le (hd : r₁.database = r₂.database) (hl : r₁.limits = r₂.limits)
    (ht : r₁.trace = r₂.trace) (hle : r₁.activations ≤ r₂.activations) {goals : List Goal}
    (hgoals : ∀ g ∈ goals, g.Over fun x => '#' ∉ x.toList) :
    (r₂.search goals).1 = (r₁.search goals).1.map
        (Proof.rename (.shift (r₂.activations - r₁.activations))) ∧
      (r₂.search goals).2.steps = (r₁.search goals).2.steps := by
  have hsetting : r₂.setting = r₁.setting := by simp [setting, hd, hl, ht]
  have hahead : Tally.Ahead (r₂.activations - r₁.activations) ⟨0, r₁.activations, r₁.output⟩
      ⟨0, r₂.activations, r₂.output⟩ := ⟨rfl, (Nat.add_sub_cancel' hle).symm⟩
  have hself : goals.map (Goal.rename (Relabelling.shift (r₂.activations - r₁.activations))) =
      goals := by
    refine (List.map_congr_left fun g hg => ?_).trans (List.map_id' goals)
    refine Goal.rename_eq_self ⟨fun t ht x hx => ?_, fun e he x hx => ?_⟩
    · exact Relabelling.shift_eq_self _ ((hgoals g hg).terms t ht x hx)
    · exact Relabelling.shift_eq_self _ ((hgoals g hg).exprs e he x hx)
  -- the query and the empty bindings are their own renamings
  have hrun := (mirroring_recursive (Relabelling.shifts_shift _) r₁.setting
    r₁.limits.proofDepth).depthFirst goals .empty hahead
  rw [hself, Bindings.rename_empty] at hrun
  rw [search_eq_depthFirst, search_eq_depthFirst, hsetting, ← hl]
  exact ⟨hrun.1, hrun.2.steps⟩

/-- A reasoner that has used more clauses comes to the same verdict. -/
theorem verdict_of_le (hd : r₁.database = r₂.database) (hl : r₁.limits = r₂.limits)
    (ht : r₁.trace = r₂.trace) (hle : r₁.activations ≤ r₂.activations) (text : String) :
    r₂.verdict text = r₁.verdict text := by
  unfold verdict
  cases hread : readQuery text with
  | error f => rfl
  | ok goals =>
    obtain ⟨hresult, hsteps⟩ := search_of_le hd hl ht hle (over_of_readQuery hread)
    refine Verdict.mk.injEq .. ▸ ⟨?_, hsteps⟩
    unfold conclusion
    rw [hresult]
    cases (r₁.search goals).1 with
    | error f => rfl
    | ok proof =>
      show answer _ _ (proof.solutions.map _) = answer _ _ proof.solutions
      rw [← hl]
      refine answer_rename (fun x hx => Relabelling.shift_eq_self _ ?_) _ _
      have hvariables := Goal.forall_mem_variablesOf.2 (over_of_readQuery hread)
      exact hvariables x (List.mem_filter.1 hx).1

/-- A query line comes to the same final lines and takes the same number of steps, whatever was
executed before. The final lines are what the line emits after its search, and the steps of a query
that can be read are those that are counted. -/
theorem verdict_independent_of_history (r₁ r₂ : Reasoner) (line : String)
    (hd : r₁.database = r₂.database) (hl : r₁.limits = r₂.limits) (ht : r₁.trace = r₂.trace)
    (hq : Source.classify (Source.stripComment line.toList) = .query) :
    r₁.verdict (Source.queryText line) = r₂.verdict (Source.queryText line) ∧
    ∀ r : Reasoner,
      (r.execute line).1 = (r.searched (Source.queryText line)).logAll
        (r.verdict (Source.queryText line)).lines ∧
      ∀ goals, readQuery (Source.queryText line) = .ok goals →
        (r.execute line).1.steps = (r.verdict (Source.queryText line)).steps := by
  refine ⟨?_, fun r => ?_⟩
  · rcases Nat.le_total r₁.activations r₂.activations with hle | hle
    · exact (verdict_of_le hd hl ht hle _).symm
    · exact verdict_of_le hd.symm hl.symm ht.symm hle _
  · rw [r.execute_of_classify_query hq, r.runQuery_eq_logAll]
    refine ⟨rfl, fun goals hread => ?_⟩
    unfold searched verdict
    rw [hread]
    rfl

end Reasoner

/-! ## The query `?- q(X).` -/

theorem classify_callQ : Source.classify (Source.stripComment "?- q(X).".toList) = .query := by
  decide +kernel

theorem readQuery_queryText_callQ :
    readQuery (Source.queryText "?- q(X).") = .ok [.call "q" [.var "X"]] := by
  have htext : Source.queryText "?- q(X)." = " q(X)." := by decide +kernel
  rw [htext, readQuery_callQ]

/-- The facts `q(Z)` and `q([Z, a])`. -/
def openFacts : Database where
  predicates := [("q", [.fact [.var "Z"], .fact [.list [.var "Z", .atom "a"]]])]

/-- After five uses of clauses the variable `Z` is named differently, but `?- q(X).` has the same
two answers and takes the same single step as at the start. -/
theorem Reasoner.verdict_after_five_uses :
    Source.classify (Source.stripComment "?- q(X).".toList) = .query ∧
    Reasoner.verdict { database := openFacts } " q(X)." = ⟨["X = _", "X = [_, a]"], 1⟩ ∧
    Reasoner.verdict { database := openFacts, activations := 5, steps := 2 } " q(X)." =
      ⟨["X = _", "X = [_, a]"], 1⟩ := by
  have hquery : Source.classify (Source.stripComment "?- q(X).".toList) = .query := by
    decide +kernel
  have htext : Source.queryText "?- q(X)." = " q(X)." := by decide +kernel
  have hfirst : Reasoner.verdict { database := openFacts } " q(X)." =
      ⟨["X = _", "X = [_, a]"], 1⟩ := by
    rw [verdict, readQuery_callQ]
    simp only [conclusion, search_eq_depthFirst]
    decide +kernel
  have hsame := (verdict_independent_of_history { database := openFacts }
    { database := openFacts, activations := 5, steps := 2 } "?- q(X)." rfl rfl rfl hquery).1
  rw [htext, hfirst] at hsame
  exact ⟨hquery, hfirst, hsame.symm⟩

end StackLogic.Horn
