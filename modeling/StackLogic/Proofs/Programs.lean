import StackLogic.Proofs.Transcript

/-!
# Running a program is feeding its lines

A program is executed line by line, and the output is taken after every line. It leaves the session
that its lines leave when they are executed one after the other and the output is taken once, at the
end (`program_feeds_lines`): what was emitted before does not matter to an interpreter.
-/

namespace StackLogic

namespace Session

variable {s : Session} {language : Language} {line : String} {number : Nat}
  {executed remaining : List (String × Nat)} {stoppedAt : Option Nat} {report : ProgramReport}
  {final : Session}

/-- The lines of a program that are not blank, each with its number among all lines, counted from
one. -/
def numberedLines (text : String) : List (String × Nat) :=
  ((Text.linesOfString text).zipIdx 1).filter fun line => !Text.isBlankString line.1

/-- Execute lines one after the other, and leave the output where it is. -/
def feed (s : Session) (language : Language) (lines : List (String × Nat)) : Session :=
  lines.foldl (fun s line => (s.execute language line.1).1) s

/-- No line fails when the lines are executed one after the other. -/
def Succeeds (s : Session) (language : Language) : List (String × Nat) → Prop
  | [] => True
  | line :: rest =>
    (s.execute language line.1).2 = .done ∧ (s.execute language line.1).1.Succeeds language rest

/-- Why no more lines are executed, and the number that is reported. -/
inductive Ends (s : Session) (language : Language) :
    List (String × Nat) → List (String × Nat) → Option Nat → Prop where
  /-- All lines are executed, and none fails. -/
  | finished {executed : List (String × Nat)} (h : s.Succeeds language executed) :
      Ends s language executed [] none
  /-- The last executed line is the only one that fails. -/
  | stopped {front remaining : List (String × Nat)} {line : String} {number : Nat}
      (hfront : s.Succeeds language front)
      (hfailed : ((s.feed language front).execute language line).2 = .failed) :
      Ends s language (front ++ [(line, number)]) remaining (some number)

/-- The report and the session that are due when of the lines of a program these are executed and
those are not. -/
structure Feeds (s : Session) (language : Language) (executed remaining : List (String × Nat))
    (report : ProgramReport) (final : Session) : Prop where
  session : final = ((s.feed language executed).takeOutput language).2
  output : report.output = ((s.feed language executed).takeOutput language).1
  count : report.executed = executed.length
  ends : s.Ends language executed remaining report.stoppedAt

/-! ## Earlier output -/

/-- The session whose interpreter of this language has emitted other lines before its own. -/
def preceded (s : Session) (language : Language) (before : Output) : Session :=
  match language with
  | .forth => { s with machine := s.machine.preceded before }
  | .prolog => { s with reasoner := s.reasoner.preceded before }

/-- Earlier output stays before what a line emits. -/
theorem execute_preceded (s : Session) (language : Language) (before : Output) (line : String) :
    (s.preceded language before).execute language line =
      ((s.execute language line).1.preceded language before, (s.execute language line).2) := by
  cases language with
  | forth =>
    simp only [execute, preceded, s.machine.execute_preceded]
  | prolog =>
    simp only [execute, preceded, s.reasoner.execute_preceded]

/-- Earlier output is taken together with what is emitted later. -/
theorem takeOutput_preceded (s : Session) (language : Language) (before : Output) :
    (s.preceded language before).takeOutput language =
      (before.lines ++ (s.takeOutput language).1, (s.takeOutput language).2) := by
  cases language with
  | forth => exact congrArg (·, _) (Output.lines_after _ _)
  | prolog => exact congrArg (·, _) (Output.lines_after _ _)

/-- A session is what it is without its output, with that output before. -/
theorem preceded_takeOutput (s : Session) (language : Language) :
    (s.takeOutput language).2.preceded language (s.output language) = s := by
  cases language with
  | forth => rfl
  | prolog => rfl

theorem takeOutput_of_empty (h : s.output language = .empty) :
    s.takeOutput language = ([], s) := by
  cases language with
  | forth =>
    have houtput : s.machine.output = .empty := h
    refine Prod.ext ?_ ?_
    · show s.machine.output.lines = []
      rw [houtput, Output.lines_empty]
    · show ({ s with machine := { s.machine with output := .empty } } : Session) = s
      rw [← houtput]
  | prolog =>
    have houtput : s.reasoner.output = .empty := h
    refine Prod.ext ?_ ?_
    · show s.reasoner.output.lines = []
      rw [houtput, Output.lines_empty]
    · show ({ s with reasoner := { s.reasoner with output := .empty } } : Session) = s
      rw [← houtput]

theorem lines_output (s : Session) (language : Language) :
    (s.output language).lines = (s.takeOutput language).1 := by
  cases language with
  | forth => rfl
  | prolog => rfl

theorem output_takeOutput (s : Session) (language : Language) :
    (s.takeOutput language).2.output language = .empty := by
  cases language with
  | forth => rfl
  | prolog => rfl

/-- Lines are run alike after earlier output. -/
theorem feed_preceded (s : Session) (language : Language) (before : Output)
    (lines : List (String × Nat)) :
    (s.preceded language before).feed language lines =
      (s.feed language lines).preceded language before := by
  induction lines generalizing s with
  | nil => rfl
  | cons line rest ih =>
    show ((s.preceded language before).execute language line.1).1.feed language rest = _
    rw [execute_preceded]
    exact ih _

theorem Succeeds.preceded (h : s.Succeeds language executed) (before : Output) :
    (s.preceded language before).Succeeds language executed := by
  induction executed generalizing s with
  | nil => trivial
  | cons line rest ih =>
    obtain ⟨hdone, hrest⟩ := h
    refine ⟨?_, ?_⟩
    · rw [execute_preceded]
      exact hdone
    · rw [execute_preceded]
      exact ih hrest

theorem Ends.preceded (h : s.Ends language executed remaining stoppedAt) (before : Output) :
    (s.preceded language before).Ends language executed remaining stoppedAt := by
  cases h with
  | finished h => exact .finished (h.preceded before)
  | stopped hfront hfailed =>
    refine .stopped (hfront.preceded before) ?_
    rw [feed_preceded, execute_preceded]
    exact hfailed

/-! ## Lines of a program -/

/-- A line that does not fail comes before the lines that are executed after it. -/
theorem Ends.cons (hdone : (s.execute language line).2 = .done)
    (h : (s.execute language line).1.Ends language executed remaining stoppedAt) :
    s.Ends language ((line, number) :: executed) remaining stoppedAt := by
  cases h with
  | finished h => exact .finished ⟨hdone, h⟩
  | @stopped front _ last lastNumber hfront hfailed =>
    have hlast : s.Ends language (((line, number) :: front) ++ [(last, lastNumber)]) remaining
        (some lastNumber) := .stopped ⟨hdone, hfront⟩ hfailed
    exact hlast

/-- Lines that are executed after the output was taken are executed as if it had not been taken. -/
theorem takeOutput_feed (s : Session) (language : Language) (lines : List (String × Nat)) :
    (s.feed language lines).takeOutput language =
      ((s.takeOutput language).1 ++
          (((s.takeOutput language).2.feed language lines).takeOutput language).1,
        (((s.takeOutput language).2.feed language lines).takeOutput language).2) := by
  have hfeed := (s.takeOutput language).2.feed_preceded language (s.output language) lines
  rw [preceded_takeOutput] at hfeed
  rw [hfeed, takeOutput_preceded, lines_output]

/-- A line that succeeds goes before the other lines. -/
theorem Feeds.cons (hdone : (s.execute language line).2 = .done)
    (h : ((s.execute language line).1.takeOutput language).2.Feeds language executed remaining
      report final) :
    s.Feeds language ((line, number) :: executed) remaining
      { report with
        executed := report.executed + 1
        output := ((s.execute language line).1.takeOutput language).1 ++ report.output } final := by
  have hfeed : s.feed language ((line, number) :: executed) =
      (s.execute language line).1.feed language executed := rfl
  refine ⟨?_, ?_, ?_, ?_⟩
  · rw [hfeed, takeOutput_feed]
    exact h.session
  · rw [hfeed, takeOutput_feed, h.output]
  · rw [h.count, List.length_cons]
  · -- The program went on without the output that `feed` leaves where it is.
    have hends := h.ends.preceded ((s.execute language line).1.output language)
    rw [preceded_takeOutput] at hends
    exact hends.cons hdone

theorem feeds_nil (h : s.output language = .empty) : s.Feeds language [] [] {} s := by
  have htake := takeOutput_of_empty h
  exact ⟨by rw [feed, List.foldl_nil, htake], by rw [feed, List.foldl_nil, htake], rfl,
    .finished trivial⟩

/-- A line that fails is the last one. -/
theorem feeds_failed (hfailed : (s.execute language line).2 = .failed)
    (remaining : List (String × Nat)) :
    s.Feeds language [(line, number)] remaining
      { executed := 1
        stoppedAt := some number
        output := ((s.execute language line).1.takeOutput language).1 }
      ((s.execute language line).1.takeOutput language).2 := by
  have hends : s.Ends language ([] ++ [(line, number)]) remaining (some number) :=
    .stopped trivial hfailed
  exact ⟨rfl, rfl, rfl, hends⟩

/-- The lines that are not blank, numbered from `number`, are executed up to the first that fails.
-/
theorem exists_feeds (language : Language) (lines : List String) (number : Nat)
    (h : s.output language = .empty) :
    ∃ executed remaining,
      (lines.zipIdx number).filter (fun line => !Text.isBlankString line.1) =
        executed ++ remaining ∧
      s.Feeds language executed remaining (runLines language number lines s).1
        (runLines language number lines s).2 := by
  induction lines generalizing number s with
  | nil => exact ⟨[], [], rfl, feeds_nil h⟩
  | cons line rest ih =>
    rw [List.zipIdx_cons, runLines]
    by_cases hblank : Text.isBlankString line = true
    · rw [if_pos hblank, List.filter_cons_of_neg (by simp [hblank])]
      exact ih (number + 1) h
    · rw [if_neg hblank, List.filter_cons_of_pos (by simp [hblank])]
      dsimp only
      cases houtcome : (s.execute language line).2 with
      | failed => exact ⟨[(line, number)], _, rfl, feeds_failed houtcome _⟩
      | done =>
        obtain ⟨executed, remaining, hlines, hfeeds⟩ :=
          ih (number + 1) (output_takeOutput (s.execute language line).1 language)
        rw [hlines]
        exact ⟨(line, number) :: executed, remaining, rfl, hfeeds.cons houtcome⟩

/-! ## Both interpreters -/

theorem succeeds_append_singleton :
    s.Succeeds language (executed ++ [(line, number)]) ↔
      s.Succeeds language executed ∧
        ((s.feed language executed).execute language line).2 = .done := by
  induction executed generalizing s with
  | nil => exact ⟨fun h => ⟨trivial, h.1⟩, fun h => ⟨h.2, trivial⟩⟩
  | cons first rest ih =>
    rw [List.cons_append, Succeeds, Succeeds, ih, and_assoc]
    rfl

/-- A number is reported exactly if an executed line fails. -/
theorem Ends.stoppedAt_eq_none_iff (h : s.Ends language executed remaining stoppedAt) :
    stoppedAt = none ↔ s.Succeeds language executed := by
  cases h with
  | finished h => exact iff_of_true rfl h
  | stopped _ hfailed =>
    refine iff_of_false nofun fun h => ?_
    rw [(succeeds_append_singleton.1 h).2] at hfailed
    cases hfailed

/-- A line of the logic language never fails. -/
theorem outcome_prolog (s : Session) (line : String) : (s.execute .prolog line).2 = .done := by
  show (s.reasoner.execute line).2 = .done
  unfold Horn.Reasoner.execute
  split
  · rfl
  · rfl

/-- No line of the logic language stops a program. -/
theorem Ends.stoppedAt_prolog (h : s.Ends .prolog executed remaining stoppedAt) :
    stoppedAt = none := by
  cases h with
  | finished => rfl
  | stopped _ hfailed =>
    rw [outcome_prolog] at hfailed
    cases hfailed

/-- A program of the stack language does not touch the reasoner. -/
theorem reasoner_feed (s : Session) (lines : List (String × Nat)) :
    (s.feed .forth lines).reasoner = s.reasoner := by
  induction lines generalizing s with
  | nil => rfl
  | cons line rest ih => exact ih _

/-- A program of the logic language does not touch the machine. -/
theorem machine_feed (s : Session) (lines : List (String × Nat)) :
    (s.feed .prolog lines).machine = s.machine := by
  induction lines generalizing s with
  | nil => rfl
  | cons line rest ih => exact ih _

/-- Running a program is feeding its lines. If no output of the language is left from before, a
program leaves the session, and reports in order the output, that come from executing its lines one
after the other, blank ones apart, up to and including the first that fails. The lines so executed
are counted. The number of the failing one among all lines is reported, and none exactly if no
executed line fails; a line of the logic language never does. The other interpreter stays as it was,
and no output of the language is left. -/
theorem program_feeds_lines (s : Session) (language : Language) (text : String)
    (h : s.output language = .empty) :
    (∃ executed remaining, numberedLines text = executed ++ remaining ∧
      s.Feeds language executed remaining (s.runProgram language text).1
        (s.runProgram language text).2 ∧
      ((s.runProgram language text).1.stoppedAt = none ↔ s.Succeeds language executed)) ∧
    (language = .prolog → (s.runProgram language text).1.stoppedAt = none) ∧
    (language = .forth → (s.runProgram language text).2.reasoner = s.reasoner) ∧
    (language = .prolog → (s.runProgram language text).2.machine = s.machine) ∧
    (s.runProgram language text).2.output language = .empty := by
  obtain ⟨executed, remaining, hlines, hfeeds⟩ :=
    exists_feeds language (Text.linesOfString text) 1 h
  refine ⟨⟨executed, remaining, hlines, hfeeds, hfeeds.ends.stoppedAt_eq_none_iff⟩, ?_, ?_, ?_, ?_⟩
  · rintro rfl
    exact hfeeds.ends.stoppedAt_prolog
  · rintro rfl
    rw [runProgram, hfeeds.session]
    exact reasoner_feed s executed
  · rintro rfl
    rw [runProgram, hfeeds.session]
    exact machine_feed s executed
  · rw [runProgram, hfeeds.session]
    exact output_takeOutput _ language

/-- A definition spans a blank line, the sixth line fails, and the last one is not executed. -/
def failingProgram : String := "1 .\n: sq dup\n  \n* ;\n3 sq .\n+ +\n4 ."

theorem program_feeds_lines_failing :
    (fresh {}).output .forth = .empty ∧
    ((fresh {}).runProgram .forth failingProgram).1.stoppedAt = some 6 ∧
    ((fresh {}).runProgram .forth failingProgram).1.output =
      [⟨.log, "1"⟩, ⟨.log, "9"⟩, ⟨.log, "Stack underflow in +"⟩] ∧
    ∃ executed remaining, numberedLines failingProgram = executed ++ remaining ∧
      executed.length = 5 ∧
      (fresh {}).Feeds .forth executed remaining ((fresh {}).runProgram .forth failingProgram).1
        ((fresh {}).runProgram .forth failingProgram).2 := by
  have hempty : (fresh {}).output .forth = .empty := rfl
  have hcount : ((fresh {}).runProgram .forth failingProgram).1.executed = 5 := by decide +kernel
  obtain ⟨⟨executed, remaining, hlines, hfeeds, -⟩, -⟩ :=
    program_feeds_lines (fresh {}) .forth failingProgram hempty
  refine ⟨hempty, by decide +kernel, by decide +kernel, executed, remaining, hlines, ?_, hfeeds⟩
  rw [← hfeeds.count, hcount]

end Session

end StackLogic
