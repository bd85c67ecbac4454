import StackLogic.Proofs.CallDepth
import StackLogic.Proofs.QueryBounds

/-!
# What was emitted before does not matter

An interpreter writes its output and never reads it. With other lines in its record, a machine or a
reasoner executes a line in the same way, and the new lines come after the earlier ones
(`Machine.execute_preceded`, `Reasoner.execute_preceded`). So taking the output between two lines does
not change what the second one does or emits (`takeOutput_execute`).
-/

namespace StackLogic

namespace Output

variable {o before : Output}

/-- The lines of `o` after those of `before`. -/
def after (o before : Output) : Output := { newestFirst := o.newestFirst ++ before.newestFirst }

theorem lines_after (o before : Output) : (o.after before).lines = before.lines ++ o.lines :=
  List.reverse_append

theorem emitAll_after (o before : Output) (ls : List OutputLine) :
    (o.after before).emitAll ls = (o.emitAll ls).after before := by
  unfold emitAll after
  rw [List.append_assoc]

end Output

namespace Machine

variable {m : Machine} {before : Output}

/-- The machine that has emitted other lines before its own. -/
def preceded (m : Machine) (before : Output) : Machine :=
  { m with output := m.output.after before }

/-! ## The stack machine -/

theorem compile_preceded (m : Machine) (before : Output) (t : Token) :
    (m.preceded before).compile t = (m.compile t).map (·.preceded before) := by
  have hcompilation : (m.preceded before).compilation = m.compilation := rfl
  unfold compile
  rw [hcompilation]
  split
  · rfl
  · cases m.compilation.name with
    | none => dsimp only; split <;> rfl
    | some name => dsimp only; split <;> rfl

theorem controlStep_preceded (m : Machine) (before : Output) (w : ControlWord) :
    (m.preceded before).controlStep w = (m.controlStep w).map (·.preceded before) := by
  unfold controlStep
  have hstate : ControlState.mk (m.preceded before).control (m.preceded before).stack =
      ⟨m.control, m.stack⟩ := rfl
  rw [hstate]
  rcases w.run ⟨m.control, m.stack⟩ with ⟨st, _ | f⟩
  · rfl
  · rfl

theorem meaningStep_preceded (m : Machine) (before : Output) (name : String) (meaning : Meaning) :
    (m.preceded before).meaningStep name meaning =
      (m.meaningStep name meaning).map (·.preceded before) := by
  cases meaning with
  | defined body => rfl
  | primitive p =>
    simp only [meaningStep, primitiveStep, preceded]
    cases p.run m.dictionary m.stack with
    | error f => rfl
    | ok effect =>
      obtain ⟨stack, emitted⟩ := effect
      cases emitted with
      | none => rfl
      | some text => rfl

theorem recurseStep_preceded (m : Machine) (before : Output) :
    (m.preceded before).recurseStep = m.recurseStep.map (·.preceded before) := by
  have hactive : (m.preceded before).active = m.active := rfl
  have hdictionary : (m.preceded before).dictionary = m.dictionary := rfl
  unfold recurseStep
  rw [hactive, hdictionary]
  cases m.active with
  | nil => rfl
  | cons name outer =>
    dsimp only
    cases m.dictionary.get? name with
    | none => rfl
    | some meaning => exact m.meaningStep_preceded before name meaning

theorem plainStep_preceded (m : Machine) (before : Output) (t : Token) (upper : String) :
    (m.preceded before).plainStep t upper = (m.plainStep t upper).map (·.preceded before) := by
  have hdictionary : (m.preceded before).dictionary = m.dictionary := rfl
  unfold plainStep
  split
  · rfl
  · split
    · rfl
    · split
      · exact m.recurseStep_preceded before
      · split
        · rfl
        · rw [hdictionary]
          cases m.dictionary.get? upper with
          | some meaning => exact m.meaningStep_preceded before upper meaning
          | none => cases Value.ofLiteral? t <;> rfl

/-- A step does not look at the output. -/
theorem step_preceded (m : Machine) (before : Output) (t : Token) :
    (m.preceded before).step t = (m.step t).map (·.preceded before) := by
  have hcompilation : (m.preceded before).compilation = m.compilation := rfl
  have hcontrol : (m.preceded before).control = m.control := rfl
  unfold step
  rw [hcompilation, hcontrol]
  split
  next => exact m.compile_preceded before t
  next =>
    dsimp only
    split
    · exact m.controlStep_preceded before _
    · split
      · rfl
      · exact m.plainStep_preceded before t _

/-- The end of a run on a machine that has emitted other lines before. -/
def Halt.preceded (h : Halt) (before : Output) : Halt := (h.1.preceded before, h.2)

/-- A run does not look at the output, if calls do not. -/
theorem runWith_preceded {call : String → List Token → Machine → Halt}
    (hcall : ∀ name body m, call name body (m.preceded before) =
      (call name body m).preceded before) (ts : List Token) (m : Machine) :
    runWith call ts (m.preceded before) = (runWith call ts m).preceded before := by
  have hsame : runWith call (ts.map id) (m.preceded before) =
      ((runWith call ts m).1.preceded before, (runWith call ts m).2) := by
    refine runWith_map (f := fun m' => m'.preceded before) (P := fun _ => True)
      (fun t _ m' _ => ⟨trivial, ?_⟩) trivial
    rw [id, runWith_singleton, runWith_singleton, step_preceded]
    cases m'.step t with
    | next => rfl
    | fault => rfl
    | call name body => exact hcall name body m'
  rwa [List.map_id] at hsame

theorem callWithin_preceded (room : Nat) (name : String) (body : List Token) (m : Machine)
    (before : Output) :
    callWithin room name body (m.preceded before) =
      (callWithin room name body m).preceded before := by
  induction room generalizing name body m with
  | zero => rfl
  | succ inner ih =>
    have hbody : run inner body ((m.enterWord name).preceded before) =
        (run inner body (m.enterWord name)).preceded before := by
      rw [run_eq_runWith]
      exact runWith_preceded ih body _
    have henter : (m.preceded before).enterWord name = (m.enterWord name).preceded before := rfl
    simp only [callWithin, henter, hbody]
    rfl

theorem run_preceded (room : Nat) (ts : List Token) (m : Machine) (before : Output) :
    run room ts (m.preceded before) = (run room ts m).preceded before := by
  rw [run_eq_runWith]
  exact runWith_preceded (fun name body m => callWithin_preceded room name body m before) ts m

/-- A line runs alike after earlier output. -/
theorem halt_preceded (m : Machine) (before : Output) (line : String) :
    (m.preceded before).halt line = (m.halt line).preceded before := by
  unfold halt runLine
  cases Token.scan line with
  | error f => rfl
  | ok ts => exact run_preceded m.limits.callDepth ts { m with control := [], active := [] } before

theorem closeLine_preceded (m : Machine) (before : Output) :
    (m.preceded before).closeLine = m.closeLine.preceded before := by
  have hcontrol : (m.preceded before).control = m.control := rfl
  unfold closeLine
  rw [hcontrol]
  split
  · rfl
  · rfl

theorem report_preceded (m : Machine) (before : Output) (f : Fault) :
    (m.preceded before).report f = (m.report f).preceded before := by
  unfold report
  cases f.diagnostic? with
  | none => rfl
  | some text => rfl

/-- Executing a line does not depend on what was emitted before. -/
theorem execute_preceded (m : Machine) (before : Output) (line : String) :
    (m.preceded before).execute line =
      ((m.execute line).1.preceded before, (m.execute line).2) := by
  rw [execute_eq, execute_eq, halt_preceded]
  rcases m.halt line with ⟨m', _ | f⟩
  · simp only [Halt.preceded, closeLine_preceded]
  · simp only [Halt.preceded, closeLine_preceded, report_preceded]

/-- A line adds to the output what it emits if the output was taken before. -/
theorem lines_execute_takeOutput (m : Machine) (line : String) :
    (m.execute line).1.output.lines =
      m.output.lines ++ (m.takeOutput.2.execute line).1.output.lines := by
  have hexecute : m.execute line = _ := m.takeOutput.2.execute_preceded m.output line
  rw [hexecute]
  exact Output.lines_after _ _

/-- If the output was taken before, a line still emits what it adds to the output. -/
theorem takeOutput_execute (m : Machine) (line : String) :
    (m.takeOutput.2.execute line).1.takeOutput =
      ((m.execute line).1.output.lines.drop m.output.lines.length,
        (m.execute line).1.takeOutput.2) ∧
    (m.takeOutput.2.execute line).2 = (m.execute line).2 := by
  have hexecute : m.execute line = _ := m.takeOutput.2.execute_preceded m.output line
  rcases hquiet : m.takeOutput.2.execute line with ⟨q, outcome⟩
  have hlines : (q.preceded m.output).output.lines = m.output.lines ++ q.output.lines :=
    Output.lines_after _ _
  rw [hexecute, hquiet, hlines, List.drop_left]
  exact ⟨rfl, rfl⟩

end Machine

namespace Horn

variable {before : Output}

/-! ## The reasoner -/

/-- The tally of a search before which other lines were emitted. -/
def Tally.preceded (s : Tally) (before : Output) : Tally :=
  { s with output := s.output.after before }

/-- The search does not depend on what was emitted before. -/
def Search.WritesOnly {α : Type} (x : Search α) : Prop :=
  ∀ s before, x (s.preceded before) = ((x s).1, (x s).2.preceded before)

theorem writesOnly_proveWith {call : String → List Term → Bindings → Search (List Bindings)}
    {g : Goal} (hg : ∀ name args, g ≠ .call name args) (b : Bindings) :
    (proveWith call g b).WritesOnly := by
  have hpure : ∀ found : List Bindings, (pure found : Search (List Bindings)).WritesOnly :=
    fun _ _ _ => rfl
  have hfailure : ∀ e, (arithmeticFailure e).WritesOnly := fun _ _ _ => rfl
  cases g with
  | succeed | fail | cut | unify | notUnify => exact hpure _
  | newline | write => exact fun _ _ => rfl
  | member element list =>
    simp only [proveWith]
    split <;> exact hpure _
  | is target e =>
    simp only [proveWith]
    split
    · exact hpure _
    · exact hfailure _
  | compare c left right =>
    simp only [proveWith]
    split
    · exact hpure _
    · exact hfailure _
  | call name args => exact absurd rfl (hg name args)

/-- After other lines, a search has the same run. -/
theorem Runs.preceded {w : Setting} {α : Type} {d : Nat} {task : Task α} {s t : Tally}
    {events : List Event} {result : Except Failure α} (h : Runs w d task s events result t)
    (before : Output) : Runs w d task (s.preceded before) events result (t.preceded before) := by
  induction h with
  | done => exact .done
  | leave _ ih => exact .leave ih
  | found _ ih => exact .found ih
  | cut _ ih => exact .cut ih
  | proved hg _ _ ihgoal ihrest => exact .proved hg ihgoal ihrest
  | failed hg _ ih => exact .failed hg ih
  | outOfSteps hsteps => exact .outOfSteps hsteps
  | @builtin _ g b s t result hsteps hg hproved =>
    refine .builtin hsteps hg fun call => ?_
    have hwrites : (proveWith call g b).WritesOnly := writesOnly_proveWith hg b
    have hsame := hwrites { s with steps := s.steps + 1 } before
    rw [hproved call] at hsame
    exact hsame
  | tooDeep hsteps hdepth => exact .tooDeep hsteps hdepth
  | called hsteps hdepth _ ih =>
    have hcalled := Runs.called (s := Tally.preceded _ before) hsteps hdepth
      (by simpa only [Tally.preceded, Output.emitAll_after] using ih)
    simpa only [Tally.preceded, Output.emitAll_after] using hcalled
  | callFailed hsteps hdepth _ ih =>
    refine .callFailed hsteps hdepth ?_
    simpa only [Tally.preceded, Output.emitAll_after] using ih
  | noClause => exact .noClause
  | mismatch hhead _ ih => exact .mismatch hhead ih
  | unreadable hhead hbody => exact .unreadable hhead hbody
  | bodyFailed hhead hbody _ ih => exact .bodyFailed hhead hbody ih
  | bodyCut hhead hbody _ hcut ih => exact .bodyCut hhead hbody ih hcut
  | bodyProved hhead hbody _ hcut _ ih ihrest => exact .bodyProved hhead hbody ih hcut ihrest

namespace Reasoner

/-- The reasoner that has emitted other lines before its own. -/
def preceded (r : Reasoner) (before : Output) : Reasoner :=
  { r with output := r.output.after before }

/-- A search does not look at the output. -/
theorem search_preceded (r : Reasoner) (before : Output) (goals : List Goal) :
    (r.preceded before).search goals =
      ((r.search goals).1, (r.search goals).2.preceded before) := by
  obtain ⟨events, result, t, hrun⟩ := r.exists_runs goals
  have hlater : (r.preceded before).Runs goals events result (t.preceded before) :=
    Horn.Runs.preceded hrun before
  rw [hlater.search_eq, hrun.search_eq]

theorem logAll_preceded (r : Reasoner) (before : Output) (texts : List String) :
    (r.preceded before).logAll texts = (r.logAll texts).preceded before := by
  unfold logAll preceded
  simp only [Output.emitAll_after]

/-- A query runs alike after earlier output. -/
theorem query_preceded (r : Reasoner) (before : Output) (goals : List Goal) :
    (r.preceded before).query goals = (r.query goals).preceded before := by
  have hconclusion : (r.preceded before).conclusion goals = r.conclusion goals := by
    unfold conclusion
    rw [search_preceded]
    rfl
  rw [query_eq_logAll, query_eq_logAll, hconclusion, search_preceded, ← logAll_preceded]
  rfl

theorem define_preceded (r : Reasoner) (before : Output) (read : Except Failure (String × Clause)) :
    (r.preceded before).define read = (r.define read).preceded before := by
  cases read with
  | ok clause => rfl
  | error f => rfl

theorem runQuery_preceded (r : Reasoner) (before : Output) (text : String) :
    (r.preceded before).runQuery text = (r.runQuery text).preceded before := by
  unfold runQuery
  cases readQuery text with
  | ok goals => exact r.query_preceded before goals
  | error f => rfl

theorem list_preceded (r : Reasoner) (before : Output) :
    (r.preceded before).list = r.list.preceded before := by
  have hdatabase : (r.preceded before).database = r.database := rfl
  unfold list
  rw [hdatabase]
  split
  · rfl
  · exact r.logAll_preceded before _

theorem command_preceded (r : Reasoner) (before : Output) (line : String) :
    (r.preceded before).command line = (r.command line).preceded before := by
  unfold command
  dsimp only
  split
  · exact r.list_preceded before
  · rfl
  · rfl
  · rfl
  · split
    · exact r.define_preceded before _
    · rfl

/-- A line runs alike after earlier output. -/
theorem use_preceded (r : Reasoner) (before : Output) (line : List Char) :
    (r.preceded before).use line = (r.use line).preceded before := by
  unfold use
  dsimp only
  split
  · exact r.define_preceded before _
  · split
    · exact r.runQuery_preceded before _
    · exact r.define_preceded before _
    · exact r.command_preceded before _

/-- Executing a line does not depend on what was emitted before. -/
theorem execute_preceded (r : Reasoner) (before : Output) (line : String) :
    (r.preceded before).execute line =
      ((r.execute line).1.preceded before, (r.execute line).2) := by
  unfold execute
  split
  · rfl
  · rw [use_preceded]

/-- If the output was taken before, a line still emits what it adds to the output. -/
theorem takeOutput_execute (r : Reasoner) (line : String) :
    (r.takeOutput.2.execute line).1.takeOutput =
      ((r.execute line).1.output.lines.drop r.output.lines.length,
        (r.execute line).1.takeOutput.2) ∧
    (r.takeOutput.2.execute line).2 = (r.execute line).2 := by
  have hexecute : r.execute line = _ := r.takeOutput.2.execute_preceded r.output line
  rcases hquiet : r.takeOutput.2.execute line with ⟨q, outcome⟩
  have hlines : (q.preceded r.output).output.lines = r.output.lines ++ q.output.lines :=
    Output.lines_after _ _
  rw [hexecute, hquiet, hlines, List.drop_left]
  exact ⟨rfl, rfl⟩

end Reasoner

end Horn

end StackLogic
