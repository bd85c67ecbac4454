import StackLogic.Proofs.QueryBounds

/-!
# Reports of calls change nothing else

A `Report` is what a search emits, in the order of the search and nested as its calls are: a line of
a goal, or a call with everything that is emitted until the call is over. Its lines follow from it
whether calls are reported or not (`Report.lines`): a call that is reported begins with a `Call:` line
and, once it is over, ends with a `Fail:` line or with an `Exit:` line for each of its solutions.

Two searches that differ in nothing but whether calls are reported have the same reports
(`Runs.exists_told`), and therefore the same result, the same counts, and the same lines apart from
those that begin and end a call. The calls in the reports are calls of the search
(`Report.Genuine`), and if the search has ended without a failure, all of them are over
(`Report.Complete`).
-/

namespace StackLogic.Horn

/-! ## Reports -/

/-- What a search emits. -/
inductive Report where
  /-- A line that does not depend on whether calls are reported. -/
  | line (l : OutputLine)
  /-- A call with the values of its arguments, what is emitted while it is carried out, and its
  solutions, if it came to its end. -/
  | call (name : String) (args : List Term) (inside : List Report)
      (solutions : Option (List Bindings))

namespace Report

/-- The line that tells of a call. -/
def opening (name : String) (args : List Term) : OutputLine :=
  ⟨.log, "Call: " ++ Term.displayHead name args⟩

/-- The lines that tell how a call ended: one that it failed, or one for each solution. -/
def closing (name : String) (args : List Term) : Option (List Bindings) → List OutputLine
  | none => []
  | some [] => [⟨.log, "Fail: " ++ Term.displayHead name args⟩]
  | some solutions =>
    solutions.map fun b => ⟨.log, "Exit: " ++ Term.displayHead name (args.map b.resolveDeep)⟩

mutual

/-- The lines of a report, with or without those that tell of calls. -/
def lines (trace : Bool) : Report → List OutputLine
  | line l => [l]
  | call name args inside solutions =>
    (if trace then [opening name args] else []) ++ linesAll trace inside ++
      (if trace then closing name args solutions else [])

/-- The lines of several reports. -/
def linesAll (trace : Bool) : List Report → List OutputLine
  | [] => []
  | r :: rest => r.lines trace ++ linesAll trace rest

end

/-- All calls in the report have come to their end. -/
inductive Complete : Report → Prop where
  | line (l : OutputLine) : Complete (.line l)
  | call {name : String} {args : List Term} {inside : List Report} {solutions : List Bindings}
      (hinside : ∀ r ∈ inside, Complete r) : Complete (.call name args inside (some solutions))

/-- Every call in the report is a call of the search, which has these solutions, or was stopped by a
failure, and which emits the lines of its report and no other. -/
inductive Genuine (w : Setting) : Report → Prop where
  | line (l : OutputLine) : Genuine w (.line l)
  | solved {n : Nat} {name : String} {args : List Term} {b : Bindings} {s t : Tally}
      {inside : List Report} {solutions : List Bindings}
      (hcall : w.call (w.prover n) name args b s = (.ok solutions, t))
      (houtput : t.output = s.output.emitAll
        ((call name (args.map b.resolveDeep) inside (some solutions)).lines w.trace))
      (hinside : ∀ r ∈ inside, Genuine w r) :
      Genuine w (.call name (args.map b.resolveDeep) inside (some solutions))
  | stopped {n : Nat} {name : String} {args : List Term} {b : Bindings} {s t : Tally}
      {inside : List Report} {f : Failure}
      (hcall : w.call (w.prover n) name args b s = (.error f, t))
      (houtput : t.output = s.output.emitAll
        ((call name (args.map b.resolveDeep) inside none).lines w.trace))
      (hinside : ∀ r ∈ inside, Genuine w r) :
      Genuine w (.call name (args.map b.resolveDeep) inside none)

/-- Reports one after the other are shown one after the other. -/
theorem linesAll_append (trace : Bool) (rs rs' : List Report) :
    linesAll trace (rs ++ rs') = linesAll trace rs ++ linesAll trace rs' := by
  induction rs with
  | nil => rfl
  | cons r rest ih => simp only [List.cons_append, linesAll, ih, List.append_assoc]

theorem linesAll_singleton (trace : Bool) (r : Report) : linesAll trace [r] = r.lines trace :=
  List.append_nil _

theorem linesAll_map_line (trace : Bool) (ls : List OutputLine) :
    linesAll trace (ls.map line) = ls := by
  induction ls with
  | nil => rfl
  | cons l rest ih => simp only [List.map_cons, linesAll, lines, ih, List.singleton_append]

end Report

theorem emitAll_emitAll (o : Output) (ls ls' : List OutputLine) :
    (o.emitAll ls).emitAll ls' = o.emitAll (ls ++ ls') := by
  simp [Output.emitAll]

/-! ## Searches with and without reports -/

/-- The same clauses and limits, with or without reports of calls. -/
def Setting.traced (w : Setting) (trace : Bool) : Setting := { w with trace }

/-- What is emitted before the clauses of a call are tried, apart from the report. -/
def Setting.unknownLines (w : Setting) (name : String) (args : List Term) : List OutputLine :=
  if w.database.contains name then []
  else [⟨.debug, "Unknown procedure: " ++ name ++ "/" ++ toString args.length⟩]

/-- A call is announced in a trace only, but an unknown predicate always. -/
theorem entryLines_traced (w : Setting) (trace : Bool) (name : String) (args : List Term) :
    (w.traced trace).entryLines name args =
      (if trace then [Report.opening name args] else []) ++ w.unknownLines name args := rfl

/-- How a call is left is reported in a trace only. -/
theorem exitLines_traced (w : Setting) (trace : Bool) (name : String) (args : List Term)
    (solutions : List Bindings) :
    (w.traced trace).exitLines name args solutions =
      if trace then Report.closing name args (some solutions) else [] := by
  cases trace with
  | false => rfl
  | true => cases solutions <;> rfl

/-- The search succeeds and emits certain lines, whatever was counted and emitted before. -/
def Search.EmitsAlways {α : Type} (x : Search α) : Prop :=
  ∃ a ls, ∀ s : Tally, x s = (.ok a, { s with output := s.output.emitAll ls })

theorem emitsAlways_proveWith {call : String → List Term → Bindings → Search (List Bindings)}
    {g : Goal} (hg : ∀ name args, g ≠ .call name args) (b : Bindings) :
    (proveWith call g b).EmitsAlways := by
  have hpure : ∀ found : List Bindings, (pure found : Search (List Bindings)).EmitsAlways :=
    fun _ => ⟨_, [], fun _ => rfl⟩
  have hfailure : ∀ e, (arithmeticFailure e).EmitsAlways := fun _ => ⟨_, [_], fun _ => rfl⟩
  cases g with
  | succeed | fail | cut | unify | notUnify => exact hpure _
  | newline | write => exact ⟨_, [_], fun _ => rfl⟩
  | member element list =>
    simp only [proveWith]
    split <;> exact hpure _
  | is target e =>
    simp only [proveWith]
    split
    · exact hpure _
    · exact hfailure _
  | compare c left right =>
    simp only [proveWith]
    split
    · exact hpure _
    · exact hfailure _
  | call name args => exact absurd rfl (hg name args)

variable {w : Setting} {α : Type} {d : Nat} {task : Task α} {s t : Tally} {events : List Event}
  {result : Except Failure α}

/-- With these reports, the task has the same run whether calls are reported or not and whatever was
emitted before. -/
structure Told (w : Setting) (d : Nat) (task : Task α) (s : Tally) (events : List Event)
    (result : Except Failure α) (t : Tally) (reports : List Report) : Prop where
  runs : ∀ trace output, Runs (w.traced trace) d task { s with output } events result
    { t with output := output.emitAll (Report.linesAll trace reports) }
  genuine : ∀ r ∈ reports, r.Genuine (w.traced true)
  complete : ∀ a, result = .ok a → ∀ r ∈ reports, r.Complete

theorem lines_stopped (w : Setting) (trace : Bool) (name : String) (args : List Term)
    (inside : List Report) :
    (Report.call name args ((w.unknownLines name args).map .line ++ inside) none).lines trace =
      (w.traced trace).entryLines name args ++ Report.linesAll trace inside := by
  rw [entryLines_traced, Report.lines, Report.linesAll_append, Report.linesAll_map_line]
  cases trace <;> simp [Report.closing]

/-- The report of a call shows what is said on entering, inside and on leaving. -/
theorem lines_solved (w : Setting) (trace : Bool) (name : String) (args : List Term)
    (inside : List Report) (solutions : List Bindings) :
    (Report.call name args ((w.unknownLines name args).map .line ++ inside)
      (some solutions)).lines trace =
      (w.traced trace).entryLines name args ++ Report.linesAll trace inside ++
        (w.traced trace).exitLines name args solutions := by
  rw [entryLines_traced, exitLines_traced, Report.lines, Report.linesAll_append,
    Report.linesAll_map_line]
  simp only [List.append_assoc]

theorem forall_mem_unknownLines {P : Report → Prop} (hline : ∀ l, P (.line l)) {name : String}
    {args : List Term} {inside : List Report} (h : ∀ r ∈ inside, P r) :
    ∀ r ∈ (w.unknownLines name args).map .line ++ inside, P r := by
  refine List.forall_mem_append.2 ⟨fun r hr => ?_, h⟩
  obtain ⟨l, -, rfl⟩ := List.mem_map.1 hr
  exact hline l

theorem Runs.call_eq {name : String} {args : List Term} {b : Bindings}
    {result : Except Failure (List Bindings)}
    (h : Runs w d (.goal (.call name args) b) s events result t)
    (hsteps : s.steps < w.limits.proofSteps) (hdepth : d < w.limits.proofDepth) :
    w.call (w.prover (w.limits.proofDepth - (d + 1))) name args b
      { s with steps := s.steps + 1 } = (result, t) := by
  rw [← attempt_call name args b hsteps hdepth]
  exact h.search_eq

/-- A run has the same reports with and without reports of calls. -/
theorem Runs.exists_told (h : Runs w d task s events result t) :
    ∃ reports, Told w d task s events result t reports := by
  induction h with
  | done => exact ⟨[], fun _ _ => .done, nofun, nofun⟩
  | leave _ ih =>
    obtain ⟨reports, h⟩ := ih
    exact ⟨reports, fun trace output => .leave (h.runs trace output), h.genuine, h.complete⟩
  | found _ ih =>
    obtain ⟨reports, h⟩ := ih
    exact ⟨reports, fun trace output => .found (h.runs trace output), h.genuine, h.complete⟩
  | cut _ ih =>
    obtain ⟨reports, h⟩ := ih
    exact ⟨reports, fun trace output => .cut (h.runs trace output), h.genuine, h.complete⟩
  | proved hg _ _ ihgoal ihrest =>
    obtain ⟨reports, h⟩ := ihgoal
    obtain ⟨later, hlater⟩ := ihrest
    refine ⟨reports ++ later, fun trace output => ?_, ?_, ?_⟩
    · have hrest := hlater.runs trace (output.emitAll (Report.linesAll trace reports))
      rw [emitAll_emitAll, ← Report.linesAll_append] at hrest
      exact .proved hg (h.runs trace output) hrest
    · exact List.forall_mem_append.2 ⟨h.genuine, hlater.genuine⟩
    · intro a ha
      exact List.forall_mem_append.2 ⟨h.complete _ rfl, hlater.complete a ha⟩
  | failed hg _ ih =>
    obtain ⟨reports, h⟩ := ih
    exact ⟨reports, fun trace output => .failed hg (h.runs trace output), h.genuine, nofun⟩
  | outOfSteps hsteps => exact ⟨[], fun _ _ => .outOfSteps hsteps, nofun, nofun⟩
  | @builtin _ g b s t result hsteps hg hproved =>
    obtain ⟨found, ls, hemits⟩ := @emitsAlways_proveWith (fun _ _ _ => pure []) g hg b
    cases (hemits _).symm.trans (hproved fun _ _ _ => pure [])
    refine ⟨ls.map .line, fun trace output => .builtin hsteps hg fun call => ?_, ?_, ?_⟩
    · rw [proveWith_congr hg b, hemits, Report.linesAll_map_line]
    · simpa using fun l _ => Report.Genuine.line l
    · intro _ _
      simpa using fun l _ => Report.Complete.line l
  | tooDeep hsteps hdepth => exact ⟨[], fun _ _ => .tooDeep hsteps hdepth, nofun, nofun⟩
  | @called d name args b s t events solutions hsteps hdepth _ ih =>
    obtain ⟨reports, h⟩ := ih
    have hruns : ∀ trace output, Runs (w.traced trace) d (.goal (.call name args) b)
        { s with output } _ (.ok solutions) _ := fun trace output =>
      .called hsteps hdepth (h.runs trace (output.emitAll ((w.traced trace).entryLines name
        (args.map b.resolveDeep))))
    simp only [emitAll_emitAll, ← lines_solved] at hruns
    have hcall := (hruns true s.output).call_eq hsteps hdepth
    refine ⟨[.call name (args.map b.resolveDeep)
        ((w.unknownLines name (args.map b.resolveDeep)).map .line ++ reports) (some solutions)],
      fun trace output => ?_, List.forall_mem_singleton.2 ?_,
      fun _ _ => List.forall_mem_singleton.2 (.call ?_)⟩
    · rw [Report.linesAll_singleton]
      exact hruns trace output
    · exact .solved hcall rfl (forall_mem_unknownLines .line h.genuine)
    · exact forall_mem_unknownLines .line (h.complete _ rfl)
  | @callFailed d name args b s t events f hsteps hdepth _ ih =>
    obtain ⟨reports, h⟩ := ih
    have hruns : ∀ trace output, Runs (w.traced trace) d (.goal (.call name args) b)
        { s with output } _ (.error f) _ := fun trace output =>
      .callFailed hsteps hdepth (h.runs trace (output.emitAll ((w.traced trace).entryLines name
        (args.map b.resolveDeep))))
    simp only [emitAll_emitAll, ← lines_stopped] at hruns
    have hcall := (hruns true s.output).call_eq hsteps hdepth
    refine ⟨[.call name (args.map b.resolveDeep)
        ((w.unknownLines name (args.map b.resolveDeep)).map .line ++ reports) none],
      fun trace output => ?_, List.forall_mem_singleton.2 ?_, nofun⟩
    · rw [Report.linesAll_singleton]
      exact hruns trace output
    · exact .stopped hcall rfl (forall_mem_unknownLines .line h.genuine)
  | noClause => exact ⟨[], fun _ _ => .noClause, nofun, nofun⟩
  | mismatch hhead _ ih =>
    obtain ⟨reports, h⟩ := ih
    exact ⟨reports, fun trace output => .mismatch hhead (h.runs trace output), h.genuine, h.complete⟩
  | unreadable hhead hbody => exact ⟨[], fun _ _ => .unreadable hhead hbody, nofun, nofun⟩
  | bodyFailed hhead hbody _ ih =>
    obtain ⟨reports, h⟩ := ih
    exact ⟨reports, fun trace output => .bodyFailed hhead hbody (h.runs trace output), h.genuine,
      nofun⟩
  | bodyCut hhead hbody _ hcut ih =>
    obtain ⟨reports, h⟩ := ih
    exact ⟨reports, fun trace output => .bodyCut hhead hbody (h.runs trace output) hcut, h.genuine,
      fun _ _ => h.complete _ rfl⟩
  | @bodyProved _ _ _ _ _ _ _ _ _ _ _ _ _ rest hhead hbody _ hcut _ ih ihrest =>
    obtain ⟨reports, h⟩ := ih
    obtain ⟨later, hlater⟩ := ihrest
    refine ⟨reports ++ later, fun trace output => ?_, ?_, ?_⟩
    · have hrest := hlater.runs trace (output.emitAll (Report.linesAll trace reports))
      rw [emitAll_emitAll, ← Report.linesAll_append] at hrest
      exact .bodyProved hhead hbody (h.runs trace output) hcut hrest
    · exact List.forall_mem_append.2 ⟨h.genuine, hlater.genuine⟩
    · intro a ha
      cases rest with
      | error f => cases ha
      | ok found => exact List.forall_mem_append.2 ⟨h.complete _ rfl, hlater.complete _ rfl⟩

/-! ## Queries with and without reports -/

namespace Reasoner

/-- The same reasoner, with or without reports of calls. -/
def traced (r : Reasoner) (trace : Bool) : Reasoner := { r with trace }

theorem traced_self (r : Reasoner) : r.traced r.trace = r := rfl

/-- What a search finds, counts and emits, with and without reports of calls. -/
structure Transparent (r : Reasoner) (goals : List Goal) (result : Except Failure Proof)
    (steps activations : Nat) (reports : List Report) : Prop where
  /-- The result and the counts are the same, and the lines are those of the same reports. -/
  search_eq : ∀ trace, (r.traced trace).search goals =
    (result, ⟨steps, activations, r.output.emitAll (Report.linesAll trace reports)⟩)
  /-- The calls that are reported are calls of the search with their own solutions. -/
  genuine : ∀ report ∈ reports, report.Genuine (r.traced true).setting
  /-- Unless the search fails, each call that is begun is ended. -/
  complete : ∀ proof, result = .ok proof → ∀ report ∈ reports, report.Complete

/-- Every query has its reports. -/
theorem exists_transparent (r : Reasoner) (goals : List Goal) :
    ∃ result steps activations reports, r.Transparent goals result steps activations reports := by
  obtain ⟨events, result, t, hrun⟩ := r.exists_runs goals
  obtain ⟨reports, htold⟩ := Horn.Runs.exists_told hrun
  refine ⟨result, t.steps, t.activations, reports, fun trace => ?_, htold.genuine, htold.complete⟩
  exact Horn.Runs.search_eq (htold.runs trace r.output)

/-- The conclusion does not depend on the trace. -/
theorem Transparent.conclusion_traced {r : Reasoner} {goals : List Goal}
    {result : Except Failure Proof} {steps activations : Nat} {reports : List Report}
    (h : r.Transparent goals result steps activations reports) (trace : Bool) :
    (r.traced trace).conclusion goals = r.conclusion goals := by
  have hself := h.search_eq r.trace
  rw [traced_self] at hself
  unfold conclusion
  rw [h.search_eq, hself]
  rfl

/-- Whether calls are reported or not, a query has the same result, be it a failure or solutions in
their order, counts the same steps and uses of clauses, and ends with the same lines. Before these it
emits the same reports, of which only the lines that begin and end a call depend on whether calls are
reported. Each call is one of the search, and if the query does not fail, each is ended by one line
for a failure or by a line for each of its solutions, with all lines of inner calls in between. -/
theorem query_same_with_trace (r : Reasoner) {line : String}
    (hline : Source.classify (Source.stripComment line.toList) = .query) :
    (∀ f, readQuery (Source.queryText line) = .error f →
      ∀ trace, ((r.traced trace).execute line).1 = (r.traced trace).logAll [f.message]) ∧
    ∀ goals, readQuery (Source.queryText line) = .ok goals →
      ∃ result steps activations reports, r.Transparent goals result steps activations reports ∧
        ∀ trace, ((r.traced trace).execute line).1 =
          ((r.traced trace).withTally
            ⟨steps, activations, r.output.emitAll (Report.linesAll trace reports)⟩).logAll
              (r.conclusion goals) := by
  refine ⟨fun f hread trace => ?_, fun goals hread => ?_⟩
  · rw [execute_of_classify_query _ hline, runQuery, hread]
    rfl
  · obtain ⟨result, steps, activations, reports, h⟩ := r.exists_transparent goals
    refine ⟨result, steps, activations, reports, h, fun trace => ?_⟩
    rw [execute_of_readQuery _ hline hread, query_eq_logAll, h.search_eq, h.conclusion_traced]

/-- With the facts `q(Z)` and `q([Z, a])` the call of `?- q(X).` has two solutions, each of which is
reported, and the answer is the same without reports. -/
theorem query_same_with_trace_openFacts :
    Source.classify (Source.stripComment "?- q(X).".toList) = .query ∧
    ∃ reports, (∀ report ∈ reports, report.Complete) ∧
      Report.linesAll true reports =
        [⟨.log, "Call: q(X)"⟩, ⟨.log, "Exit: q(_Z1)"⟩, ⟨.log, "Exit: q([_Z2, a])"⟩] ∧
      Report.linesAll false reports = [] ∧
      ∀ trace, ((traced { database := openFacts } trace).execute "?- q(X).").1.output.lines =
        Report.linesAll trace reports ++ [⟨.log, "X = _"⟩, ⟨.log, "X = [_, a]"⟩] := by
  obtain ⟨-, hquery⟩ := query_same_with_trace { database := openFacts } classify_callQ
  obtain ⟨result, steps, activations, reports, h, hexecute⟩ := hquery _ readQuery_queryText_callQ
  have hlines : ∀ trace, Report.linesAll trace reports =
      ((traced { database := openFacts } trace).search [.call "q" [.var "X"]]).2.output.lines := by
    intro trace
    rw [h.search_eq]
    exact (Output.lines_emitAll {} _).symm
  have hconclusion : conclusion { database := openFacts } [.call "q" [.var "X"]] =
      ["X = _", "X = [_, a]"] := by
    rw [conclusion, search_eq_depthFirst]
    decide +kernel
  have hok : ∃ proof, result = .ok proof := by
    have hsearch : ((traced { database := openFacts } true).search
        [.call "q" [.var "X"]]).1.isOk = true := by
      rw [search_eq_depthFirst]
      decide +kernel
    rw [h.search_eq] at hsearch
    cases result with
    | ok proof => exact ⟨proof, rfl⟩
    | error f => cases hsearch
  obtain ⟨proof, hproof⟩ := hok
  refine ⟨classify_callQ, reports, h.complete proof hproof, ?_, ?_, fun trace => ?_⟩
  · rw [hlines, search_eq_depthFirst]
    decide +kernel
  · rw [hlines, search_eq_depthFirst]
    decide +kernel
  · rw [hexecute, hconclusion, logAll, Output.lines_emitAll, withTally, Output.lines_emitAll]
    rfl

end Reasoner

end StackLogic.Horn
