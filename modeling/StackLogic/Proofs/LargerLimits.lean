import StackLogic.Proofs.History

/-!
# Limits only cut a search short

The limits on steps and on depth have no other effect than to end a search. `Outruns` compares a
search with one whose limits are at least as large: both end alike, with the same counts and lines, or
the first one exceeds a limit, and all it has emitted is the beginning of what the second one emits.
Each layer of the search has this property, and it is kept by going on with a result.
-/

namespace StackLogic.Horn

/-! ## A search and one that goes further -/

/-- The second tally has counted as much as the first. What was emitted may differ. -/
structure Tally.Level (s s' : Tally) : Prop where
  steps : s'.steps = s.steps
  activations : s'.activations = s.activations

/-- Between the two tallies, these lines were emitted. -/
def Tally.Emits (s : Tally) (lines : List OutputLine) (t : Tally) : Prop :=
  t.output.lines = s.output.lines ++ lines

/-- Lines that are emitted one after the other are emitted. -/
theorem Tally.Emits.trans {s t u : Tally} {lines more : List OutputLine} (h : s.Emits lines t)
    (h' : t.Emits more u) : s.Emits (lines ++ more) u := by
  unfold Emits at h h' ⊢
  rw [h', h, List.append_assoc]

namespace Search

variable {α β : Type}

/-- How two searches end that start at these tallies. -/
inductive Outrun (s s' : Tally) (e e' : Except Failure α × Tally) : Prop where
  /-- They end alike. -/
  | level (lines : List OutputLine) (hresult : e'.1 = e.1) (hlevel : e.2.Level e'.2)
      (hfirst : s.Emits lines e.2) (hsecond : s'.Emits lines e'.2)
  /-- The first one exceeds a limit, and the second one may go on. -/
  | short (lines more : List OutputLine) (resource : Resource) (limit : Nat)
      (hresult : e.1 = .error (.exhausted resource limit))
      (hfirst : s.Emits lines e.2) (hsecond : s'.Emits (lines ++ more) e'.2)

/-- Started with the same counts, the second search does what the first does, or goes further. -/
def Outruns (x y : Search α) : Prop := ∀ ⦃s s'⦄, s.Level s' → Outrun s s' (x s) (y s')

/-- The search emits lines and takes none back. -/
def Speaks (x : Search α) : Prop := ∀ s : Tally, ∃ lines, s.Emits lines (x s).2

/-- A search that goes further takes no emitted line back. -/
theorem Outruns.speaks {x y : Search α} (h : Outruns x y) : y.Speaks := by
  intro s
  have hself : s.Level s := ⟨rfl, rfl⟩
  cases h hself with
  | level lines _ _ _ hsecond => exact ⟨lines, hsecond⟩
  | short lines more _ _ _ _ hsecond => exact ⟨lines ++ more, hsecond⟩

/-- A search that always gives the same result and emits the same lines. -/
theorem outruns_of_emits {x : Search α} (a : α) (lines : List OutputLine)
    (hx : ∀ s, (x s).1 = .ok a ∧ s.Level (x s).2 ∧ s.Emits lines (x s).2) : Outruns x x := by
  intro s s' h
  obtain ⟨hresult, hlevel, hfirst⟩ := hx s
  obtain ⟨hresult', hlevel', hsecond⟩ := hx s'
  refine .level lines (hresult'.trans hresult.symm) ⟨?_, ?_⟩ hfirst hsecond
  · rw [hlevel'.steps, h.steps, hlevel.steps]
  · rw [hlevel'.activations, h.activations, hlevel.activations]

theorem outruns_pure (a : α) : Outruns (pure a) (pure a : Search α) :=
  outruns_of_emits a [] fun _ => ⟨rfl, ⟨rfl, rfl⟩, (List.append_nil _).symm⟩

theorem outruns_emitAll (lines : List OutputLine) : Outruns (emitAll lines) (emitAll lines) :=
  outruns_of_emits () lines fun s => ⟨rfl, ⟨rfl, rfl⟩, s.output.lines_emitAll lines⟩

theorem outruns_log (text : String) : Outruns (log text) (log text) :=
  outruns_of_emits () [⟨.log, text⟩] fun s => ⟨rfl, ⟨rfl, rfl⟩, s.output.lines_emit .log text⟩

theorem outruns_debug (text : String) : Outruns (debug text) (debug text) :=
  outruns_of_emits () [⟨.debug, text⟩] fun s => ⟨rfl, ⟨rfl, rfl⟩, s.output.lines_emit .debug text⟩

theorem outruns_fail (f : Failure) : Outruns (fail f) (fail f : Search α) :=
  fun _ _ h => .level [] rfl h (List.append_nil _).symm (List.append_nil _).symm

theorem outruns_ofExcept (x : Except Failure α) : Outruns (ofExcept x) (ofExcept x) := by
  cases x with
  | error f => exact outruns_fail f
  | ok a => exact outruns_pure a

theorem outruns_activate : Outruns activate activate := by
  intro s s' h
  refine .level [] ?_ ⟨h.steps, congrArg (· + 1) h.activations⟩ (List.append_nil _).symm
    (List.append_nil _).symm
  show Except.ok (s'.activations + 1) = Except.ok (s.activations + 1)
  rw [h.activations]

/-- Where the first search exceeds a limit, the second may do anything but take lines back. -/
theorem outruns_exhausted {y : Search α} (hy : y.Speaks) (resource : Resource) (limit : Nat) :
    Outruns (fail (.exhausted resource limit)) y := by
  intro s s' _
  obtain ⟨lines, hlines⟩ := hy s'
  exact .short [] lines resource limit rfl (List.append_nil _).symm hlines

/-- A search goes further if its parts do; where the first is cut short, it has emitted less. -/
theorem outruns_bind {x y : Search α} {k l : α → Search β} (hx : Outruns x y)
    (hk : ∀ a, Outruns (k a) (l a)) : Outruns (x >>= k) (y >>= l) := by
  intro s s' h
  rw [bind_apply, bind_apply]
  rcases hxs : x s with ⟨result, t⟩
  rcases hys : y s' with ⟨result', t'⟩
  have hboth := hx h
  rw [hxs, hys] at hboth
  cases hboth with
  | level lines hresult hlevel hfirst hsecond =>
    cases hresult
    cases result with
    | error f => exact .level lines rfl hlevel hfirst hsecond
    | ok a =>
      cases hk a hlevel with
      | level more hresult hlevel' hfirst' hsecond' =>
        exact .level (lines ++ more) hresult hlevel' (hfirst.trans hfirst') (hsecond.trans hsecond')
      | short more rest resource limit hresult hfirst' hsecond' =>
        refine .short (lines ++ more) rest resource limit hresult (hfirst.trans hfirst') ?_
        rw [List.append_assoc]
        exact hsecond.trans hsecond'
  | short lines more resource limit hresult hfirst hsecond =>
    cases hresult
    cases result' with
    | error f => exact .short lines more resource limit rfl hfirst hsecond
    | ok a =>
      -- the second search goes on alone
      obtain ⟨rest, hrest⟩ := (hk a).speaks t'
      refine .short lines (more ++ rest) resource limit rfl hfirst ?_
      rw [← List.append_assoc]
      exact hsecond.trans hrest

end Search

open Search

/-! ## The layers of a search -/

variable {prove prove' : Goal → Bindings → Search (List Bindings)} {w w' : Setting}

theorem outruns_followedBy (proof : Proof) {more more' : Search Proof} (h : Outruns more more') :
    Outruns (proof.followedBy more) (proof.followedBy more') := by
  cases hc : proof.cut with
  | true =>
    rw [Proof.followedBy_of_cut hc, Proof.followedBy_of_cut hc]
    exact outruns_pure proof
  | false =>
    rw [Proof.followedBy_of_not_cut hc, Proof.followedBy_of_not_cut hc]
    exact outruns_bind h fun rest => outruns_pure _

/-- The proofs of one clause after the other go further if each does. -/
theorem outruns_untilCut {α : Type} {run run' : α → Search Proof}
    (h : ∀ a, Outruns (run a) (run' a)) (as : List α) :
    Outruns (untilCut run as) (untilCut run' as) := by
  induction as with
  | nil => exact outruns_pure _
  | cons a more ih => exact outruns_bind (h a) fun proof => outruns_followedBy proof ih

/-- Every goal is proved by a search and by one that goes further. -/
def Outrunning (prove prove' : Goal → Bindings → Search (List Bindings)) : Prop :=
  ∀ g b, Outruns (prove g b) (prove' g b)

/-- The search goes further if the proofs of single goals do. -/
theorem Outrunning.depthFirst (hp : Outrunning prove prove') (goals : List Goal) (b : Bindings) :
    Outruns (depthFirst prove goals b) (depthFirst prove' goals b) := by
  induction goals generalizing b with
  | nil => exact outruns_pure _
  | cons g rest ih =>
    by_cases hg : g = .cut
    · rw [hg]
      exact outruns_bind (ih b) fun proof => outruns_pure _
    · rw [depthFirst_cons hg, depthFirst_cons hg]
      exact outruns_bind (hp g b) fun alternatives => outruns_untilCut ih alternatives

/-- The proof of a clause goes further if the proofs of its goals do. -/
theorem Outrunning.proveClause (hp : Outrunning prove prove') (args : List Term) (b : Bindings)
    (clause : Clause) :
    Outruns (proveClause prove args b clause) (proveClause prove' args b clause) := by
  refine outruns_bind outruns_activate fun k => ?_
  cases unifyAll args (Term.renameAll (Term.freshName k) clause.args) b with
  | none => exact outruns_pure _
  | some unified =>
    exact outruns_bind (outruns_ofExcept _) fun goals => hp.depthFirst goals unified

/-- The two search with the same clauses and the same reports. -/
structure Setting.Alike (w w' : Setting) : Prop where
  database : w'.database = w.database
  trace : w'.trace = w.trace

/-- A call goes further if the proofs of its bodies do. -/
theorem Outrunning.callThrough (hp : Outrunning prove prove') (hw : w.Alike w') (name : String)
    (args : List Term) (b : Bindings) :
    Outruns (w.callThrough prove name args b) (w'.callThrough prove' name args b) := by
  have hentry : w'.entryLines = w.entryLines := by
    funext name args
    simp only [Setting.entryLines, hw.database, hw.trace]
  have hexit : w'.exitLines = w.exitLines := by
    funext name args solutions
    simp only [Setting.exitLines, hw.trace]
  unfold Setting.callThrough
  rw [hentry, hexit, hw.database]
  refine outruns_bind (outruns_emitAll _) fun _ => ?_
  refine outruns_bind (outruns_untilCut (hp.proveClause _ b) _) fun proof => ?_
  exact outruns_bind (outruns_emitAll _) fun _ => outruns_pure _

/-- Only calls depend on the limits. -/
theorem outrunning_proveWith
    {call call' : String → List Term → Bindings → Search (List Bindings)}
    (hcall : ∀ name args b, Outruns (call name args b) (call' name args b)) :
    Outrunning (proveWith call) (proveWith call') := by
  have hfailure : ∀ e, Outruns (arithmeticFailure e) (arithmeticFailure e) :=
    fun e => outruns_bind (outruns_debug _) fun _ => outruns_pure _
  intro g b
  cases g with
  | succeed | cut | fail | unify | notUnify => exact outruns_pure _
  | newline => exact outruns_bind (outruns_log _) fun _ => outruns_pure _
  | write t => exact outruns_bind (outruns_log _) fun _ => outruns_pure _
  | member element list =>
    simp only [proveWith]
    split <;> exact outruns_pure _
  | is target e =>
    simp only [proveWith]
    split
    · exact outruns_pure _
    · exact hfailure _
  | compare c left right =>
    simp only [proveWith]
    split
    · exact outruns_pure _
    · exact hfailure _
  | call name args => exact hcall name args b

/-- More steps let proofs go further. -/
theorem outrunning_counted {limit limit' : Nat} (hle : limit ≤ limit')
    (hp : Outrunning prove prove') : Outrunning (counted limit prove) (counted limit' prove') := by
  intro g b s s' h
  have hnext : Tally.Level { s with steps := s.steps + 1 } { s' with steps := s'.steps + 1 } :=
    ⟨congrArg (· + 1) h.steps, h.activations⟩
  unfold counted
  by_cases hsteps : s.steps < limit
  · have hsteps' : s'.steps < limit' := by
      have := h.steps
      omega
    simp only [if_pos hsteps, if_pos hsteps']
    cases hp g b hnext with
    | level lines hresult hlevel hfirst hsecond =>
      exact .level lines hresult hlevel hfirst hsecond
    | short lines more resource limit hresult hfirst hsecond =>
      exact .short lines more resource limit hresult hfirst hsecond
  · have hlines : ∃ lines, s'.Emits lines (counted limit' prove' g b s').2 := by
      unfold counted
      split
      · exact (hp g b).speaks { s' with steps := s'.steps + 1 }
      · exact ⟨[], (List.append_nil _).symm⟩
    obtain ⟨lines, hlines⟩ := hlines
    simp only [if_neg hsteps]
    exact .short [] lines .steps limit rfl (List.append_nil _).symm hlines

/-- More steps and more depth let the whole search go further. -/
theorem outrunning_recursive (hw : w.Alike w') (hsteps : w.limits.proofSteps ≤ w'.limits.proofSteps)
    {n n' : Nat} (hn : n ≤ n') : Outrunning (w.recursive n) (w'.recursive n') := by
  -- the second setting is compared with itself, too: this shows that it takes no lines back
  induction n' generalizing n w with
  | zero =>
    obtain rfl : n = 0 := by omega
    exact outrunning_counted hsteps (outrunning_proveWith fun _ _ _ =>
      outruns_exhausted (outruns_fail _).speaks .depth _)
  | succ n' ih =>
    cases n with
    | zero =>
      refine outrunning_counted hsteps (outrunning_proveWith fun name args b => ?_)
      have hself : Outrunning (w'.recursive n') (w'.recursive n') :=
        ih ⟨rfl, rfl⟩ (Nat.le_refl _) (Nat.le_refl _)
      exact outruns_exhausted (hself.callThrough ⟨rfl, rfl⟩ name args b).speaks .depth _
    | succ n =>
      have hinner := ih hw hsteps (by omega : n ≤ n')
      exact outrunning_counted hsteps (outrunning_proveWith (hinner.callThrough hw))

/-! ## Lines -/

namespace Reasoner

variable {r₁ r₂ r₁' r₂' : Reasoner}

/-- The two have the same clauses, report calls alike and have counted as much. -/
structure Alike (r₁ r₂ : Reasoner) : Prop where
  database : r₂.database = r₁.database
  trace : r₂.trace = r₁.trace
  steps : r₂.steps = r₁.steps
  activations : r₂.activations = r₁.activations

/-- The two are alike and show as many solutions, and the second has no smaller limits. -/
structure Within (r₁ r₂ : Reasoner) : Prop extends Alike r₁ r₂ where
  shown : r₂.limits.shown = r₁.limits.shown
  proofDepth : r₁.limits.proofDepth ≤ r₂.limits.proofDepth
  proofSteps : r₁.limits.proofSteps ≤ r₂.limits.proofSteps

/-- How the execution of a line ends for two reasoners. -/
inductive Outrun (r₁ r₂ r₁' r₂' : Reasoner) : Prop where
  /-- They are alike again and have emitted the same lines. -/
  | level (lines : List OutputLine) (halike : r₁'.Alike r₂')
      (hfirst : r₁'.output.lines = r₁.output.lines ++ lines)
      (hsecond : r₂'.output.lines = r₂.output.lines ++ lines)
  /-- The first has told that a limit is exceeded, and the second has emitted all lines before that
  message. -/
  | short (lines more : List OutputLine) (resource : Resource) (limit : Nat)
      (hfirst : r₁'.output.lines = r₁.output.lines ++
        (lines ++ [⟨.log, (Failure.exhausted resource limit).message⟩]))
      (hsecond : r₂'.output.lines = r₂.output.lines ++ (lines ++ more))

theorem outrun_self (h : r₁.Alike r₂) : Outrun r₁ r₂ r₁ r₂ :=
  .level [] h (List.append_nil _).symm (List.append_nil _).symm

theorem lines_logAll (r : Reasoner) (texts : List String) :
    (r.logAll texts).output.lines = r.output.lines ++ texts.map fun text => ⟨.log, text⟩ := by
  rw [logAll, Output.lines_emitAll]

theorem outrun_logAll (h : r₁.Alike r₂) (texts : List String) :
    Outrun r₁ r₂ (r₁.logAll texts) (r₂.logAll texts) :=
  .level _ ⟨h.database, h.trace, h.steps, h.activations⟩ (lines_logAll _ _) (lines_logAll _ _)

theorem outrun_log (h : r₁.Alike r₂) (text : String) :
    Outrun r₁ r₂ (r₁.log text) (r₂.log text) :=
  .level _ ⟨h.database, h.trace, h.steps, h.activations⟩ (Output.lines_emit _ _ _)
    (Output.lines_emit _ _ _)

theorem outrun_define (h : r₁.Alike r₂) (read : Except Failure (String × Clause)) :
    Outrun r₁ r₂ (r₁.define read) (r₂.define read) := by
  cases read with
  | error f => exact outrun_log h f.message
  | ok entry =>
    refine .level [] ⟨?_, h.trace, h.steps, h.activations⟩ (List.append_nil _).symm
      (List.append_nil _).symm
    show r₂.database.add _ _ = r₁.database.add _ _
    rw [h.database]

theorem outrun_list (h : r₁.Alike r₂) : Outrun r₁ r₂ r₁.list r₂.list := by
  unfold list
  rw [h.database]
  split
  · exact outrun_log h _
  · exact outrun_logAll h _

theorem outrun_command (h : r₁.Alike r₂) (line : String) :
    Outrun r₁ r₂ (r₁.command line) (r₂.command line) := by
  unfold command
  dsimp only
  split
  · exact outrun_list h
  · exact .level _ ⟨h.database, rfl, h.steps, h.activations⟩ (Output.lines_emit _ _ _)
      (Output.lines_emit _ _ _)
  · exact .level _ ⟨h.database, rfl, h.steps, h.activations⟩ (Output.lines_emit _ _ _)
      (Output.lines_emit _ _ _)
  · exact .level _ ⟨rfl, rfl, rfl, rfl⟩ (Output.lines_emit _ _ _) (Output.lines_emit _ _ _)
  · split
    · exact outrun_define h _
    · exact outrun_log h _

/-- A query with larger limits goes further. -/
theorem outrun_query (h : r₁.Within r₂) (goals : List Goal) :
    Outrun r₁ r₂ (r₁.query goals) (r₂.query goals) := by
  have hrun : Search.Outrun ⟨0, r₁.activations, r₁.output⟩ ⟨0, r₂.activations, r₂.output⟩
      (r₁.search goals) (r₂.search goals) := by
    have hrecursive : Outrunning (r₁.setting.recursive r₁.limits.proofDepth)
        (r₂.setting.recursive r₂.limits.proofDepth) :=
      outrunning_recursive ⟨h.database, h.trace⟩ h.proofSteps h.proofDepth
    rw [search_eq_depthFirst, search_eq_depthFirst]
    exact hrecursive.depthFirst goals .empty ⟨rfl, h.activations⟩
  rw [query_eq_logAll, query_eq_logAll]
  cases hrun with
  | level lines hresult hlevel hfirst hsecond =>
    have hconclusion : r₂.conclusion goals = r₁.conclusion goals := by
      simp only [conclusion, hresult, h.shown]
    rw [hconclusion]
    refine .level (lines ++ (r₁.conclusion goals).map fun text => ⟨.log, text⟩)
      ⟨h.database, h.trace, hlevel.steps, hlevel.activations⟩ ?_ ?_
    · rw [← List.append_assoc, ← hfirst, lines_logAll]
      rfl
    · rw [← List.append_assoc, ← hsecond, lines_logAll]
      rfl
  | short lines more resource limit hresult hfirst hsecond =>
    have hconclusion : r₁.conclusion goals = [(Failure.exhausted resource limit).message] := by
      simp only [conclusion, hresult]
    rw [hconclusion]
    refine .short lines (more ++ (r₂.conclusion goals).map fun text => ⟨.log, text⟩) resource limit
      ?_ ?_
    · rw [← List.append_assoc, ← hfirst, lines_logAll]
      rfl
    · rw [← List.append_assoc, ← List.append_assoc, List.append_assoc r₂.output.lines, ← hsecond,
        lines_logAll]
      rfl

theorem outrun_use (h : r₁.Within r₂) (line : List Char) :
    Outrun r₁ r₂ (r₁.use line) (r₂.use line) := by
  unfold use
  dsimp only
  split
  · exact outrun_define h.toAlike _
  · split
    · unfold runQuery
      split
      · exact outrun_query h _
      · exact outrun_log h.toAlike _
    · exact outrun_define h.toAlike _
    · exact outrun_command h.toAlike _

/-- A line with larger limits goes further; only queries look at limits. -/
theorem outrun_execute (h : r₁.Within r₂) (line : String) :
    Outrun r₁ r₂ (r₁.execute line).1 (r₂.execute line).1 := by
  unfold execute
  split
  · exact outrun_self h.toAlike
  · dsimp only
    exact outrun_use h _

/-- The lines that the execution of a line adds to those emitted before. -/
def emitted (r : Reasoner) (line : String) : List OutputLine :=
  (r.execute line).1.output.lines.drop r.output.lines.length

/-- What is behind the earlier lines was emitted by the line. -/
theorem emitted_eq {r : Reasoner} {line : String} {lines : List OutputLine}
    (h : (r.execute line).1.output.lines = r.output.lines ++ lines) : r.emitted line = lines := by
  rw [emitted, h, List.drop_left]

/-- A message that a limit is exceeded. -/
def IsLimitMessage (line : OutputLine) : Prop :=
  ∃ resource limit, line = ⟨.log, (Failure.exhausted resource limit).message⟩

/-- The limits on proofs only cut the execution of a line short. If the first reasoner does not tell
that a limit is exceeded, then the second, which has no smaller limits, emits the same lines and is
left with the same clauses, the same reports of calls and the same counts. If the first does tell so,
all lines before its message are the beginning of what the second emits. In either case lines are
only added to those emitted before. -/
theorem larger_limits_extend_run {r₁ r₂ : Reasoner} (hdatabase : r₁.database = r₂.database)
    (htrace : r₁.trace = r₂.trace) (hactivations : r₁.activations = r₂.activations)
    (hsteps : r₁.steps = r₂.steps) (hshown : r₁.limits.shown = r₂.limits.shown)
    (hdepth : r₁.limits.proofDepth ≤ r₂.limits.proofDepth)
    (hproofSteps : r₁.limits.proofSteps ≤ r₂.limits.proofSteps) (line : String) :
    ((r₁.execute line).1.output.lines = r₁.output.lines ++ r₁.emitted line ∧
      (r₂.execute line).1.output.lines = r₂.output.lines ++ r₂.emitted line) ∧
    ((∀ l ∈ r₁.emitted line, ¬ IsLimitMessage l) →
      r₁.emitted line = r₂.emitted line ∧
      (r₁.execute line).1.database = (r₂.execute line).1.database ∧
      (r₁.execute line).1.trace = (r₂.execute line).1.trace ∧
      (r₁.execute line).1.steps = (r₂.execute line).1.steps ∧
      (r₁.execute line).1.activations = (r₂.execute line).1.activations) ∧
    ∀ before message after, r₁.emitted line = before ++ message :: after → IsLimitMessage message →
      before <+: r₂.emitted line := by
  have hwithin : r₁.Within r₂ :=
    { database := hdatabase.symm, trace := htrace.symm, steps := hsteps.symm,
      activations := hactivations.symm, shown := hshown.symm, proofDepth := hdepth,
      proofSteps := hproofSteps }
  cases outrun_execute hwithin line with
  | level lines halike hfirst hsecond =>
    rw [emitted_eq hfirst, emitted_eq hsecond]
    refine ⟨⟨hfirst, hsecond⟩, fun _ => ?_, fun before message after hlines _ => ?_⟩
    · exact ⟨rfl, halike.database.symm, halike.trace.symm, halike.steps.symm,
        halike.activations.symm⟩
    · rw [hlines]
      exact List.prefix_append _ _
  | short lines more resource limit hfirst hsecond =>
    rw [emitted_eq hfirst, emitted_eq hsecond]
    refine ⟨⟨hfirst, hsecond⟩, fun hnone => ?_, fun before message after hlines _ => ?_⟩
    · exact absurd ⟨resource, limit, rfl⟩ (hnone _ (by simp))
    · -- the message may also be a line that was written earlier
      have hle : before.length ≤ lines.length := by
        have hlength := congrArg List.length hlines
        simp only [List.length_append, List.length_cons, List.length_nil] at hlength
        omega
      have hwhole := List.prefix_append before (message :: after)
      rw [← hlines] at hwhole
      have hbefore := List.prefix_of_prefix_length_le hwhole (List.prefix_append lines _) hle
      exact hbefore.trans (List.prefix_append _ _)

/-- A reasoner that reports calls, with the rule `q(X) :- q(X)` and room for so many nested calls. -/
def endlessWithin (depth : Nat) : Reasoner where
  database := Database.empty.add "q" (.rule [.var "X"] [.callQ])
  trace := true
  limits := { proofDepth := depth }

theorem emitted_endlessWithin (depth : Nat) :
    (endlessWithin depth).emitted "?- q(X)." =
      ((endlessWithin depth).query [.call "q" [.var "X"]]).output.lines := by
  rw [emitted, execute_of_readQuery _ classify_callQ readQuery_queryText_callQ]
  rfl

/-- With room for two nested calls, `?- q(X).` reports two calls and then the limit. With room for
three it reports these calls first, too. -/
theorem larger_limits_extend_run_endless :
    (endlessWithin 2).emitted "?- q(X)." =
      [⟨.log, "Call: q(X)"⟩, ⟨.log, "Call: q(_X1)"⟩,
        ⟨.log, "Resource limit exceeded: proof depth (limit 2)"⟩] ∧
    [⟨.log, "Call: q(X)"⟩, ⟨.log, "Call: q(_X1)"⟩] <+: (endlessWithin 3).emitted "?- q(X)." := by
  have hfirst : (endlessWithin 2).emitted "?- q(X)." =
      [⟨.log, "Call: q(X)"⟩, ⟨.log, "Call: q(_X1)"⟩,
        ⟨.log, "Resource limit exceeded: proof depth (limit 2)"⟩] := by
    rw [emitted_endlessWithin, query_eq_logAll]
    simp only [conclusion, search_eq_depthFirst]
    decide +kernel
  obtain ⟨-, -, hprefix⟩ := @larger_limits_extend_run (endlessWithin 2) (endlessWithin 3)
    rfl rfl rfl rfl rfl (by decide) (by decide) "?- q(X)."
  refine ⟨hfirst, hprefix _ _ [] hfirst ⟨.depth, 2, ?_⟩⟩
  decide +kernel

end Reasoner

end StackLogic.Horn
