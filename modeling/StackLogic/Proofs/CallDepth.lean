import StackLogic.Proofs.Inlining

/-!
# The limit of call depth only cuts a line short

A step looks at no limit (`step_withLimits`), and it emits lines without taking any back
(`tells_step`). So two machines that differ in their limits go side by side until a call finds no
room. `Outrun` compares the ends of two runs: they end alike, or the first one has no room for a
call, and all it has emitted is the beginning of what the second one emits.
-/

namespace StackLogic.Machine

variable {m m' m₁ m₂ m₃ : Machine} {t : Token} {ts body : List Token} {name : String}
  {room room' : Nat} {l : Limits} {line : String}
  {call call' : String → List Token → Machine → Halt}

/-! ## Other limits -/

/-- The machine with other limits. -/
def withLimits (m : Machine) (l : Limits) : Machine := { m with limits := l }

/-- A step does not look at the limits. -/
theorem step_withLimits (m : Machine) (l : Limits) (t : Token) :
    (m.withLimits l).step t = (m.step t).map (·.withLimits l) := by
  have hreframe : (m.withLimits l).step t = (m.step t).map (·.reframe m.active l) :=
    step_reframe m.active l fun _ => rfl
  have hframe := frame_step m t
  rw [hreframe]
  cases hs : m.step t with
  | next m' | fault f m' =>
    rw [hs] at hframe
    have hactive : m'.active = m.active := hframe.active
    simp only [Step.map, reframe, withLimits, ← hactive]
  | call name body => rfl

/-! ## Emitted lines -/

/-- The second machine has emitted what the first has, and maybe more. -/
def Tells (m m' : Machine) : Prop := m.output.lines <+: m'.output.lines

theorem Tells.refl (m : Machine) : m.Tells m := List.prefix_refl _

theorem Tells.trans (h : m₁.Tells m₂) (h' : m₂.Tells m₃) : m₁.Tells m₃ := List.IsPrefix.trans h h'

theorem tells_of_output (h : m'.output = m.output) : m.Tells m' := by
  show m.output.lines <+: m'.output.lines
  exact h ▸ List.prefix_refl m.output.lines

theorem tells_controlStep (m : Machine) (w : ControlWord) :
    (m.controlStep w).Leads m.Tells fun _ _ => True := by
  unfold controlStep
  rcases w.run { control := m.control, stack := m.stack } with ⟨st, _ | f⟩
  · exact .refl m
  · exact .refl m

/-- Only a primitive word emits a line. -/
theorem tells_meaningStep (m : Machine) (name : String) (meaning : Meaning) :
    (m.meaningStep name meaning).Leads m.Tells fun _ _ => True := by
  cases meaning with
  | defined body => trivial
  | primitive p =>
    have hstep : m.meaningStep name (.primitive p) = m.primitiveStep p := rfl
    rw [hstep, primitiveStep]
    cases p.run m.dictionary m.stack with
    | error f => exact .refl m
    | ok effect =>
      cases hemitted : effect.emitted with
      | none => exact tells_of_output (by simp only [hemitted])
      | some text =>
        show m.output.lines <+: _
        simp only [hemitted, Output.log, Output.lines_emit]
        exact List.prefix_append _ _

theorem tells_compile (m : Machine) (t : Token) :
    (m.compile t).Leads m.Tells fun _ _ => True := by
  unfold compile
  split
  · exact .refl m
  · split <;> · split <;> exact .refl m

theorem tells_recurseStep (m : Machine) : m.recurseStep.Leads m.Tells fun _ _ => True := by
  unfold recurseStep
  split
  · exact .refl m
  · split
    · exact m.tells_meaningStep _ _
    · exact .refl m

theorem tells_plainStep (m : Machine) (t : Token) (upper : String) :
    (m.plainStep t upper).Leads m.Tells fun _ _ => True := by
  unfold plainStep
  split
  · exact .refl m
  · split
    · exact .refl m
    · split
      · exact m.tells_recurseStep
      · split
        · exact .refl m
        · split
          · exact m.tells_meaningStep _ _
          · split
            · exact .refl m
            · exact .refl m

/-- A step takes no emitted line back. -/
theorem tells_step (m : Machine) (t : Token) : (m.step t).Leads m.Tells fun _ _ => True := by
  unfold step
  split
  · exact m.tells_compile t
  · dsimp only
    split
    · exact m.tells_controlStep _
    · split
      · exact .refl m
      · exact m.tells_plainStep t _

/-- A run takes no emitted line back. -/
theorem tells_run (room : Nat) (ts : List Token) (m : Machine) : m.Tells (run room ts m).1 := by
  induction room using Nat.strongRecOn generalizing ts m with
  | _ room ih =>
    refine run_preserves (fun t _ m' hm' => ?_) (.refl m)
    refine (tells_step m' t).mono (fun _ h => hm'.trans h) ?_
    intro name body _ inner hroom
    exact hm'.trans (ih inner (by omega) body (m'.enterWord name))

theorem tells_callWithin (room : Nat) (name : String) (body : List Token) (m : Machine) :
    m.Tells (callWithin room name body m).1 := by
  cases room with
  | zero => exact .refl m
  | succ inner => exact tells_run inner body (m.enterWord name)

/-! ## Runs with different room -/

/-- How two runs end, of which the second has other limits. -/
inductive Outrun (l : Limits) (h h' : Halt) : Prop where
  /-- They end alike. -/
  | level (hmachine : h'.1 = h.1.withLimits l) (hfault : h'.2 = h.2)
  /-- The first one has no room for a call, and the second one may go on. -/
  | short (hexceeded : h.Exceeded) (htells : h.1.Tells h'.1)

/-- If the second way to carry out calls does what the first does, or goes further, this holds of
all runs. -/
theorem outrun_runWith
    (hcall : ∀ name body m, Outrun l (call name body m) (call' name body (m.withLimits l)))
    (htells : ∀ ts (m : Machine), m.Tells (runWith call' ts m).1) (ts : List Token) (m : Machine) :
    Outrun l (runWith call ts m) (runWith call' ts (m.withLimits l)) := by
  induction ts generalizing m with
  | nil => exact .level rfl rfl
  | cons t rest ih =>
    have hfirst : Outrun l (runWith call [t] m) (runWith call' [t] (m.withLimits l)) := by
      rw [runWith_singleton, runWith_singleton, step_withLimits]
      cases m.step t with
      | next m' => exact .level rfl rfl
      | fault f m' => exact .level rfl rfl
      | call name body => exact hcall name body m
    rw [runWith_cons t rest, runWith_cons t rest (m.withLimits l)]
    rcases hrun : runWith call [t] m with ⟨m', fault?⟩
    rcases hrun' : runWith call' [t] (m.withLimits l) with ⟨m'', fault?'⟩
    rw [hrun, hrun'] at hfirst
    cases hfirst with
    | level hmachine hfault =>
      obtain rfl : m'' = m'.withLimits l := hmachine
      obtain rfl : fault?' = fault? := hfault
      cases fault?' with
      | none => exact ih m'
      | some f => exact .level rfl rfl
    | short hexceeded htold =>
      obtain ⟨limit, hlimit⟩ := hexceeded
      obtain rfl : fault? = some (.callDepth limit) := hlimit
      refine .short ⟨limit, rfl⟩ ?_
      cases fault?' with
      | none => exact htold.trans (htells rest m'')
      | some f => exact htold

/-- A call with more room ends alike, or the first one had too little. -/
theorem outrun_callWithin (hroom : room ≤ room') (name : String) (body : List Token)
    (m : Machine) :
    Outrun l (callWithin room name body m) (callWithin room' name body (m.withLimits l)) := by
  induction room generalizing room' name body m with
  | zero => exact .short ⟨_, rfl⟩ (tells_callWithin room' name body (m.withLimits l))
  | succ inner ih =>
    obtain ⟨inner', rfl⟩ : ∃ n, room' = n + 1 := ⟨room' - 1, by omega⟩
    have hbody : Outrun l (run inner body (m.enterWord name))
        (run inner' body ((m.enterWord name).withLimits l)) := by
      rw [run_eq_runWith, run_eq_runWith]
      refine outrun_runWith (ih (by omega)) (fun ts m' => ?_) body (m.enterWord name)
      rw [← run_eq_runWith]
      exact tells_run inner' ts m'
    cases hbody with
    | level hmachine hfault => exact .level (congrArg leaveWord hmachine) hfault
    | short hexceeded htells => exact .short hexceeded htells

/-- A run with more room ends alike, or the first one had too little. -/
theorem outrun_run (hroom : room ≤ room') (ts : List Token) (m : Machine) :
    Outrun l (run room ts m) (run room' ts (m.withLimits l)) := by
  rw [run_eq_runWith, run_eq_runWith]
  refine outrun_runWith (outrun_callWithin hroom) (fun ts m' => ?_) ts m
  rw [← run_eq_runWith]
  exact tells_run room' ts m'

/-! ## Lines -/

/-- What is said at the end of a line: which control structures are open, and what stopped it. -/
def Halt.diagnostics (h : Halt) : List OutputLine :=
  (if h.1.control.isEmpty then [] else [⟨.debug, unbalanced h.1.control⟩]) ++
    match h.2 with
    | none => []
    | some f => ⟨.log, f.message⟩ :: f.diagnostic?.toList.map fun text => ⟨.debug, text⟩

theorem lines_closeLine (m : Machine) :
    m.closeLine.output.lines = m.output.lines ++
      (if m.control.isEmpty then [] else [⟨.debug, unbalanced m.control⟩]) := by
  unfold closeLine
  split
  · exact (List.append_nil _).symm
  · exact m.output.lines_emit .debug _

/-- A fault is reported by one line, and by its diagnostic if it has one. -/
theorem lines_report (m : Machine) (f : Fault) :
    (m.report f).output.lines = m.output.lines ++
      ⟨.log, f.message⟩ :: f.diagnostic?.toList.map fun text => ⟨.debug, text⟩ := by
  unfold report
  cases f.diagnostic? with
  | none => exact m.output.lines_emit .log _
  | some text => simp [Output.log, Output.debug]

/-- Executing a line emits what its tokens emit, and then the diagnostics. -/
theorem lines_execute (m : Machine) (line : String) :
    (m.execute line).1.output.lines =
      (m.halt line).1.output.lines ++ (m.halt line).diagnostics := by
  rw [execute_eq, Halt.diagnostics]
  rcases m.halt line with ⟨m', _ | f⟩
  · dsimp only
    rw [lines_closeLine, List.append_nil]
  · dsimp only
    rw [lines_report, lines_closeLine, List.append_assoc]

theorem tells_halt (m : Machine) (line : String) : m.Tells (m.halt line).1 := by
  unfold halt runLine
  split
  · exact tells_run _ _ { m with control := [], active := [] }
  · exact .refl m

/-- A line with a greater limit ends alike, or the first one was cut short. -/
theorem outrun_halt (hdepth : m.limits.callDepth ≤ l.callDepth) (line : String) :
    Outrun l (m.halt line) ((m.withLimits l).halt line) := by
  unfold halt runLine
  cases Token.scan line with
  | ok ts => exact outrun_run hdepth ts { m with control := [], active := [] }
  | error f => exact .level rfl rfl

/-- Lines that end alike leave alike machines. -/
theorem execute_of_halt (hmachine : (m'.halt line).1 = (m.halt line).1.withLimits l)
    (hfault : (m'.halt line).2 = (m.halt line).2) :
    m'.execute line = ((m.execute line).1.withLimits l, (m.execute line).2) := by
  have hclose : ∀ m : Machine, (m.withLimits l).closeLine = m.closeLine.withLimits l := by
    intro m
    unfold closeLine
    split
    next h => rw [if_pos (show m.control.isEmpty = true from h)]
    next h => rw [if_neg (show ¬ m.control.isEmpty = true from h)]; rfl
  rw [execute_eq, execute_eq, hfault, hmachine]
  cases (m.halt line).2 with
  | none => simp only [hclose]
  | some f =>
    simp only [hclose]
    rfl

/-- The lines that the tokens of a line emit. -/
def spoken (m : Machine) (line : String) : List OutputLine :=
  (m.halt line).1.output.lines.drop m.output.lines.length

/-- A line emits what it says, and takes nothing back. -/
theorem lines_halt (m : Machine) (line : String) :
    (m.halt line).1.output.lines = m.output.lines ++ m.spoken line := by
  obtain ⟨lines, hlines⟩ := m.tells_halt line
  rw [spoken, ← hlines, List.drop_left]

/-- The limit of call depth only cuts the execution of a line short. Two machines that differ in
their limits end a line alike, unless the first has no room for a call: the same outcome, the same
lines, the same operands and the same definitions. If the first has no room for a call, all lines
that its tokens have emitted, before anything is said about the end of the line, are the beginning
of what the second emits. -/
theorem larger_callDepth_extends_line {m₁ m₂ : Machine} (hstate : m₂ = m₁.withLimits m₂.limits)
    (hdepth : m₁.limits.callDepth ≤ m₂.limits.callDepth) (line : String) :
    (m₁.execute line).1.output.lines =
      m₁.output.lines ++ (m₁.spoken line ++ (m₁.halt line).diagnostics) ∧
    ((∀ limit, (m₁.halt line).2 ≠ some (.callDepth limit)) →
      (m₁.execute line).2 = (m₂.execute line).2 ∧
      (m₁.execute line).1.output = (m₂.execute line).1.output ∧
      (m₁.execute line).1.stack = (m₂.execute line).1.stack ∧
      (m₁.execute line).1.dictionary = (m₂.execute line).1.dictionary ∧
      (m₁.execute line).1.compilation = (m₂.execute line).1.compilation) ∧
    ∀ limit, (m₁.halt line).2 = some (.callDepth limit) →
      ∃ more, (m₂.execute line).1.output.lines = m₂.output.lines ++ (m₁.spoken line ++ more) := by
  have houtput : m₂.output = m₁.output := by rw [hstate]; rfl
  have hends : Outrun m₂.limits (m₁.halt line) (m₂.halt line) := by
    have hboth := outrun_halt hdepth line
    rwa [← hstate] at hboth
  refine ⟨?_, fun hwithin => ?_, fun limit hlimit => ?_⟩
  · rw [lines_execute, lines_halt, List.append_assoc]
  · cases hends with
    | level hmachine hfault =>
      rw [execute_of_halt hmachine hfault]
      exact ⟨rfl, rfl, rfl, rfl, rfl⟩
    | short hexceeded _ =>
      obtain ⟨limit, hlimit⟩ := hexceeded
      exact absurd hlimit (hwithin limit)
  · have htells : (m₁.halt line).1.Tells (m₂.halt line).1 := by
      cases hends with
      | level hmachine _ => exact tells_of_output (by rw [hmachine]; rfl)
      | short _ htells => exact htells
    obtain ⟨lines, hlines⟩ := htells
    refine ⟨lines ++ (m₂.halt line).diagnostics, ?_⟩
    rw [lines_execute, ← hlines, lines_halt, houtput]
    simp only [List.append_assoc]

/-- Two words that say their number and call each other, with room for so many active words. -/
def pingPong (depth : Nat) : Machine where
  dictionary := (({} : Dictionary).define "A" ["1", ".", "b"]).define "B" ["2", ".", "a"]
  limits := { callDepth := depth }

/-- With room for two words, `a` says 1 and 2, and then a third call finds no room. With room for
three, 1 and 2 come first, too. -/
theorem larger_callDepth_extends_line_pingPong :
    pingPong 3 = (pingPong 2).withLimits (pingPong 3).limits ∧
    ((pingPong 2).halt "a").2 = some (.callDepth 2) ∧
    (pingPong 2).spoken "a" = [⟨.log, "1"⟩, ⟨.log, "2"⟩] ∧
    ∃ more, ((pingPong 3).execute "a").1.output.lines = [⟨.log, "1"⟩, ⟨.log, "2"⟩] ++ more := by
  have hfault : ((pingPong 2).halt "a").2 = some (.callDepth 2) := by decide +kernel
  have hspoken : (pingPong 2).spoken "a" = [⟨.log, "1"⟩, ⟨.log, "2"⟩] := by decide +kernel
  obtain ⟨-, -, hprefix⟩ := @larger_callDepth_extends_line (pingPong 2) (pingPong 3) rfl
    (by decide) "a"
  obtain ⟨more, hmore⟩ := hprefix 2 hfault
  rw [hspoken] at hmore
  exact ⟨rfl, hfault, hspoken, more, hmore⟩

end StackLogic.Machine
