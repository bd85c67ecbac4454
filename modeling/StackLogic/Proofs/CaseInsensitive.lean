import StackLogic.Proofs.EarlierOutput
import StackLogic.Proofs.LetterCase

/-!
# Letter case does not matter outside of quotes

Two machines are alike if they differ in the letter case of the tokens they have stored, and not
even in that where a token is a text in quotes. Tokens that differ in letter case only lead alike
machines to alike machines (`inStep_step`), so whole runs stay in step (`inStep_run`), and so do any
number of lines (`letter_case_is_ignored`). All that can tell the two apart is the message about an
unknown word, which repeats the token as it was written.
-/

namespace StackLogic

namespace Machine

/-! ## What is alike -/

/-- The tokens are equal but for letter case, and equal if they are texts in quotes. -/
def Token.Alike (t u : Token) : Prop := Text.SameLetters t u ∧ (t.isQuoted = true → t = u)

instance (t u : Token) : Decidable (t.Alike u) :=
  inferInstanceAs (Decidable (Text.SameLetters t u ∧ (t.isQuoted = true → t = u)))

/-- The bodies are alike token by token. -/
abbrev BodiesAlike (ts us : List Token) : Prop := List.Forall₂ Token.Alike ts us

/-- The same fault, but for the letter case of the token that an unknown word was written as. -/
inductive Fault.Alike : Fault → Fault → Prop where
  | same (f : Fault) : Alike f f
  | unknownWord {t u : Token} (h : t.Alike u) : Alike (.unknownWord t) (.unknownWord u)

/-- The same line, or the message about an unknown word with the token in another letter case. -/
inductive EmittedAlike : OutputLine → OutputLine → Prop where
  | same (line : OutputLine) : EmittedAlike line line
  | unknownWord {t u : Token} (h : t.Alike u) :
      EmittedAlike ⟨.log, (Fault.unknownWord t).message⟩ ⟨.log, (Fault.unknownWord u).message⟩

/-- The same open definition, with alike tokens. -/
structure Compilation.Alike (c e : Compilation) : Prop where
  compiling : e.compiling = c.compiling
  name : e.name = c.name
  pending : BodiesAlike c.pending e.pending

/-- The same meaning, with alike tokens. -/
inductive Meaning.Alike : Meaning → Meaning → Prop where
  | primitive (p : Primitive) : Alike (.primitive p) (.primitive p)
  | defined {ts us : List Token} (h : BodiesAlike ts us) : Alike (.defined ts) (.defined us)

/-- The same names with alike meanings. -/
def Dictionary.Alike (d e : Dictionary) : Prop :=
  List.Forall₂ (fun x y => x.1 = y.1 ∧ Meaning.Alike x.2 y.2) d.words e.words

/-- The machines are equal but for the letter case of stored tokens, whatever they have emitted. -/
structure Alike (m n : Machine) : Prop where
  stack : n.stack = m.stack
  control : n.control = m.control
  active : n.active = m.active
  limits : n.limits = m.limits
  dictionary : m.dictionary.Alike n.dictionary
  compilation : m.compilation.Alike n.compilation

/-- The machines are alike and have emitted the same. -/
structure InStep (m n : Machine) : Prop extends Machine.Alike m n where
  output : n.output = m.output

/-- The steps lead to machines in step, to alike faults or to calls of alike bodies. -/
inductive Step.InStep : Step → Step → Prop where
  | next {m n : Machine} (h : m.InStep n) : InStep (.next m) (.next n)
  | fault {f g : Fault} {m n : Machine} (hf : f.Alike g) (h : m.InStep n) :
      InStep (.fault f m) (.fault g n)
  | call (name : String) {ts us : List Token} (h : BodiesAlike ts us) :
      InStep (.call name ts) (.call name us)

/-- The runs have stopped in step and for alike faults. -/
structure Halt.InStep (h h' : Halt) : Prop where
  machine : h.1.InStep h'.1
  fault : Option.Rel Fault.Alike h.2 h'.2

variable {m n : Machine} {t u : Token} {ts us : List Token} {name : String} {d e : Dictionary}

/-! ## Tokens -/

theorem Token.Alike.refl (t : Token) : t.Alike t := ⟨rfl, fun _ => rfl⟩

theorem Token.Alike.eq_of_quoted (h : t.Alike u) (hquoted : u.isQuoted = true) : t = u :=
  h.2 (h.1.isQuoted_eq.trans hquoted)

theorem Token.Alike.eq_colon_iff (h : t.Alike u) : t = ":" ↔ u = ":" :=
  h.1.eq_iff (by simp)

theorem Token.Alike.eq_semicolon_iff (h : t.Alike u) : t = ";" ↔ u = ";" :=
  h.1.eq_iff (by simp)

/-! ## The dictionary -/

theorem Meaning.Alike.refl : (meaning : Meaning) → meaning.Alike meaning
  | .primitive p => .primitive p
  | .defined _ => .defined (List.forall₂_same.2 fun t _ => .refl t)

theorem Dictionary.Alike.refl (d : Dictionary) : d.Alike d :=
  List.forall₂_same.2 fun entry _ => ⟨rfl, .refl entry.2⟩

/-- Alike dictionaries list the same words. -/
theorem Dictionary.Alike.names_eq (h : d.Alike e) : d.names = e.names := by
  have hkeys : d.words.map (·.1) = e.words.map (·.1) := by
    unfold Dictionary.Alike at h
    generalize d.words = xs at h ⊢
    generalize e.words = ys at h ⊢
    induction h with
    | nil => rfl
    | cons hentry _ ih => rw [List.map_cons, List.map_cons, hentry.1, ih]
  rw [Dictionary.names, hkeys, Dictionary.names]

/-- Words have alike meanings in alike dictionaries. -/
theorem Dictionary.Alike.get? (h : d.Alike e) (name : String) :
    Option.Rel Meaning.Alike (d.get? name) (e.get? name) := by
  unfold Dictionary.Alike at h
  unfold Dictionary.get?
  generalize d.words = xs at h ⊢
  generalize e.words = ys at h ⊢
  induction h with
  | nil => exact .none
  | cons hentry _ ih =>
    rw [Table.lookup_cons, Table.lookup_cons, hentry.1]
    split
    · exact .some hentry.2
    · exact ih

/-- Alike definitions keep dictionaries alike. -/
theorem Dictionary.Alike.define (h : d.Alike e) (name : String) (hbody : BodiesAlike ts us) :
    (d.define name ts).Alike (e.define name us) := by
  unfold Dictionary.Alike at h
  unfold Dictionary.Alike Dictionary.define
  dsimp only
  generalize d.words = xs at h ⊢
  generalize e.words = ys at h ⊢
  induction h with
  | nil => exact .cons ⟨rfl, .defined hbody⟩ .nil
  | cons hentry hrest ih =>
    rw [Table.insert, Table.insert, hentry.1]
    split
    · exact .cons ⟨rfl, .defined hbody⟩ hrest
    · exact .cons hentry ih

/-- Of the dictionary, a primitive word looks at the names only. -/
theorem Primitive.run_of_names_eq (h : d.names = e.names) (p : Primitive) (s : Operands) :
    p.run d s = p.run e s := by
  unfold Primitive.run
  split
  · rfl
  · cases p with
    | words => simp only [Primitive.apply, h]
    | _ => rfl

/-! ## Steps -/

/-- With other open definitions that are alike, the machines stay in step. -/
theorem InStep.withCompilation {c c' : Compilation} (h : m.InStep n) (hd : d.Alike e)
    (hc : c.Alike c') :
    InStep { m with dictionary := d, compilation := c }
      { n with dictionary := e, compilation := c' } :=
  ⟨⟨h.stack, h.control, h.active, h.limits, hd, hc⟩, h.output⟩

/-- Alike tokens are compiled in step. -/
theorem inStep_compile (h : m.InStep n) (ht : t.Alike u) : (m.compile t).InStep (n.compile u) := by
  have hclosed : Compilation.Alike .closed .closed := ⟨rfl, rfl, .nil⟩
  obtain ⟨hcompiling, hname, hpending⟩ := h.compilation
  unfold compile
  simp only [ht.eq_colon_iff, ht.eq_semicolon_iff, hname]
  split
  · exact .fault (.same _) (h.withCompilation h.dictionary hclosed)
  · cases m.compilation.name with
    | none =>
      dsimp only
      split
      · exact .fault (.same _) (h.withCompilation h.dictionary hclosed)
      · rw [ht.1.upper_eq]
        exact .next (h.withCompilation h.dictionary ⟨hcompiling, rfl, hpending⟩)
    | some name =>
      dsimp only
      split
      · exact .next (h.withCompilation (h.dictionary.define name hpending) hclosed)
      · exact .next (h.withCompilation h.dictionary
          ⟨hcompiling, rfl, List.rel_append hpending (.cons ht .nil)⟩)

theorem inStep_controlStep (h : m.InStep n) (w : ControlWord) :
    (m.controlStep w).InStep (n.controlStep w) := by
  have hstate : ControlState.mk n.control n.stack = ⟨m.control, m.stack⟩ := by
    rw [h.control, h.stack]
  have hmoved : ∀ st : ControlState,
      InStep { m with control := st.control, stack := st.stack }
        { n with control := st.control, stack := st.stack } :=
    fun _ => ⟨⟨rfl, rfl, h.active, h.limits, h.dictionary, h.compilation⟩, h.output⟩
  unfold controlStep
  rw [hstate]
  rcases w.run ⟨m.control, m.stack⟩ with ⟨st, _ | f⟩
  · exact .next (hmoved st)
  · exact .fault (.same f) (hmoved st)

theorem inStep_primitiveStep (h : m.InStep n) (p : Primitive) :
    (m.primitiveStep p).InStep (n.primitiveStep p) := by
  have hrun : p.run n.dictionary n.stack = p.run m.dictionary m.stack := by
    rw [h.stack, Primitive.run_of_names_eq h.dictionary.names_eq]
  unfold primitiveStep
  rw [hrun, h.output]
  cases p.run m.dictionary m.stack with
  | ok effect =>
    exact .next ⟨⟨rfl, h.control, h.active, h.limits, h.dictionary, h.compilation⟩, rfl⟩
  | error f => exact .fault (.same f) h

/-- Alike meanings are carried out in step. -/
theorem inStep_meaningStep (h : m.InStep n) (name : String) {meaning meaning' : Meaning}
    (hmeaning : meaning.Alike meaning') :
    (m.meaningStep name meaning).InStep (n.meaningStep name meaning') := by
  cases hmeaning with
  | primitive p => exact inStep_primitiveStep h p
  | defined hbody => exact .call name hbody

/-- Machines in step have the same latest word, and `RECURSE` finds alike bodies. -/
theorem inStep_recurseStep (h : m.InStep n) : m.recurseStep.InStep n.recurseStep := by
  unfold recurseStep
  rw [h.active]
  cases m.active with
  | nil => exact .fault (.same _) h
  | cons name outer =>
    have hget := h.dictionary.get? name
    dsimp only
    generalize m.dictionary.get? name = x at hget ⊢
    generalize n.dictionary.get? name = y at hget ⊢
    cases hget with
    | none => exact .fault (.same _) h
    | some hmeaning => exact inStep_meaningStep h name hmeaning

theorem InStep.push (h : m.InStep n) (v : Value) :
    InStep { m with stack := v :: m.stack } { n with stack := v :: n.stack } := by
  rw [h.stack]
  exact ⟨⟨rfl, h.control, h.active, h.limits, h.dictionary, h.compilation⟩, h.output⟩

/-- Alike tokens that are no words are the same number or the same text. -/
theorem inStep_plainStep (h : m.InStep n) (ht : t.Alike u) (upper : String) :
    (m.plainStep t upper).InStep (n.plainStep u upper) := by
  unfold plainStep
  split
  · exact .next (h.withCompilation h.dictionary ⟨rfl, rfl, .nil⟩)
  split
  · exact .fault (.same _) h
  split
  · exact inStep_recurseStep h
  rw [ht.1.isQuoted_eq]
  split
  next hquoted =>
    rw [ht.eq_of_quoted hquoted]
    exact .next (h.push _)
  next =>
    have hget := h.dictionary.get? upper
    generalize m.dictionary.get? upper = x at hget ⊢
    generalize n.dictionary.get? upper = y at hget ⊢
    cases hget with
    | some hmeaning => exact inStep_meaningStep h upper hmeaning
    | none =>
      dsimp only
      rw [ht.1.ofLiteral?_eq]
      cases Value.ofLiteral? u with
      | some v => exact .next (h.push v)
      | none => exact .fault (.unknownWord ht) h

/-- Tokens that differ in letter case only do the same on machines in step. -/
theorem inStep_step (h : m.InStep n) (ht : t.Alike u) : (m.step t).InStep (n.step u) := by
  unfold step
  rw [h.compilation.compiling]
  split
  · exact inStep_compile h ht
  · dsimp only
    rw [ht.1.upper_eq, h.control]
    split
    · exact inStep_controlStep h _
    · split
      · exact .next h
      · exact inStep_plainStep h ht _

/-! ## Runs -/

/-- Alike tokens run in step, if calls do. -/
theorem inStep_runWith {call : String → List Token → Machine → Halt}
    (hcall : ∀ name {ts us : List Token} {m n : Machine}, BodiesAlike ts us → m.InStep n →
      (call name ts m).InStep (call name us n))
    (hts : BodiesAlike ts us) (h : m.InStep n) :
    (runWith call ts m).InStep (runWith call us n) := by
  induction hts generalizing m n with
  | nil => exact ⟨h, .none⟩
  | @cons t u ts us ht _ ih =>
    -- The first token alone, so that calls and the rest of the run are told apart.
    have hfirst : (runWith call [t] m).InStep (runWith call [u] n) := by
      have hstep := inStep_step h ht
      rw [runWith_singleton, runWith_singleton]
      generalize m.step t = x at hstep ⊢
      generalize n.step u = y at hstep ⊢
      cases hstep with
      | next h' => exact ⟨h', .none⟩
      | fault hf h' => exact ⟨h', .some hf⟩
      | call name hbody => exact hcall name hbody h
    rw [runWith_cons t ts, runWith_cons u us]
    generalize runWith call [t] m = x at hfirst ⊢
    generalize runWith call [u] n = y at hfirst ⊢
    obtain ⟨m', fault?⟩ := x
    obtain ⟨n', fault?'⟩ := y
    obtain ⟨hmachine, hfault⟩ := hfirst
    cases hfault with
    | none => exact ih hmachine
    | some hf => exact ⟨hmachine, .some hf⟩

theorem inStep_callWithin (room : Nat) (name : String) (hts : BodiesAlike ts us) (h : m.InStep n) :
    (callWithin room name ts m).InStep (callWithin room name us n) := by
  induction room generalizing name ts us m n with
  | zero =>
    refine ⟨h, .some ?_⟩
    rw [h.limits]
    exact .same _
  | succ inner ih =>
    have henter : (m.enterWord name).InStep (n.enterWord name) :=
      ⟨⟨h.stack, h.control, congrArg (name :: ·) h.active, h.limits, h.dictionary, h.compilation⟩,
        h.output⟩
    have hbody : (run inner ts (m.enterWord name)).InStep (run inner us (n.enterWord name)) := by
      rw [run_eq_runWith]
      exact inStep_runWith (fun name _ _ _ _ => ih name) hts henter
    obtain ⟨hmachine, hfault⟩ := hbody
    exact ⟨⟨⟨hmachine.stack, hmachine.control, congrArg List.tail hmachine.active, hmachine.limits,
      hmachine.dictionary, hmachine.compilation⟩, hmachine.output⟩, hfault⟩

/-- Machines in step stay in step while tokens run that differ in letter case only. -/
theorem inStep_run (room : Nat) (hts : BodiesAlike ts us) (h : m.InStep n) :
    (run room ts m).InStep (run room us n) := by
  rw [run_eq_runWith]
  exact inStep_runWith (fun name _ _ _ _ => inStep_callWithin room name) hts h

/-! ## Lines -/

/-- The lines have tokens that differ in letter case only, or they cannot be scanned for the same
reason. -/
def ScansAlike (a b : String) : Prop :=
  match Token.scan a, Token.scan b with
  | .ok ts, .ok us => BodiesAlike ts us
  | .error f, .error g => f = g
  | _, _ => False

/-- What executing a line adds to the output. -/
def emitted (m : Machine) (line : String) : List OutputLine :=
  (m.execute line).1.output.lines.drop m.output.lines.length

/-- How a line ends, and what it emits. -/
abbrev Answer := Outcome × List OutputLine

/-- The same ending and alike lines. -/
def Answer.Alike (x y : Answer) : Prop := x.1 = y.1 ∧ List.Forall₂ EmittedAlike x.2 y.2

/-- The answers to lines that are executed one after the other. -/
def answers (m : Machine) : List String → List Answer
  | [] => []
  | line :: rest => ((m.execute line).2, m.emitted line) :: (m.execute line).1.answers rest

/-- The machine after lines that are executed one after the other. -/
def afterLines (m : Machine) (lines : List String) : Machine :=
  lines.foldl (fun m line => (m.execute line).1) m

variable {a b : String} {halt halt' : Halt}

theorem emitted_eq (m : Machine) (line : String) :
    m.emitted line = (m.takeOutput.2.execute line).1.output.lines := by
  rw [emitted, lines_execute_takeOutput, List.drop_left]

theorem Alike.takeOutput (h : m.Alike n) : m.takeOutput.2.InStep n.takeOutput.2 :=
  ⟨⟨h.stack, h.control, h.active, h.limits, h.dictionary, h.compilation⟩, rfl⟩

theorem Alike.of_takeOutput (h : m.takeOutput.2.Alike n.takeOutput.2) : m.Alike n :=
  ⟨h.stack, h.control, h.active, h.limits, h.dictionary, h.compilation⟩

/-- Lines that scan alike run in step. -/
theorem inStep_halt (h : m.InStep n) (hline : ScansAlike a b) : (m.halt a).InStep (n.halt b) := by
  have hstart : InStep { m with control := [], active := [] }
      { n with control := [], active := [] } :=
    ⟨⟨h.stack, rfl, rfl, h.limits, h.dictionary, h.compilation⟩, h.output⟩
  unfold ScansAlike at hline
  unfold Machine.halt runLine
  split at hline
  next ts us ha hb =>
    have hroom : n.limits.callDepth = m.limits.callDepth := by rw [h.limits]
    rw [ha, hb]
    dsimp only
    rw [hroom]
    exact inStep_run m.limits.callDepth hline hstart
  next f g ha hb =>
    rw [ha, hb, hline]
    exact ⟨hstart, .some (.same g)⟩
  next => exact hline.elim

theorem Alike.closeLine (h : m.Alike n) : m.closeLine.Alike n.closeLine := by
  unfold Machine.closeLine
  rw [h.control]
  split
  · exact h
  · exact ⟨h.stack, rfl, h.active, h.limits, h.dictionary, h.compilation⟩

theorem Alike.report (h : m.Alike n) (f g : Fault) : (m.report f).Alike (n.report g) :=
  ⟨h.stack, h.control, rfl, h.limits, h.dictionary, h.compilation⟩

theorem Halt.InStep.diagnostics (h : halt.InStep halt') :
    List.Forall₂ EmittedAlike halt.diagnostics halt'.diagnostics := by
  have hrefl : ∀ lines, List.Forall₂ EmittedAlike lines lines :=
    fun lines => List.forall₂_same.2 fun line _ => .same line
  obtain ⟨⟨halike, -⟩, hfault⟩ := h
  unfold Halt.diagnostics
  rw [halike.control]
  refine List.rel_append (hrefl _) ?_
  generalize halt.2 = x at hfault ⊢
  generalize halt'.2 = y at hfault ⊢
  cases hfault with
  | none => exact .nil
  | some hf =>
    cases hf with
    | same f => exact hrefl _
    | unknownWord ht => exact .cons (.unknownWord ht) .nil

/-- Lines that scan alike end alike and leave the machines alike. -/
theorem InStep.execute (h : m.InStep n) (hline : ScansAlike a b) :
    (m.execute a).2 = (n.execute b).2 ∧ (m.execute a).1.Alike (n.execute b).1 := by
  obtain ⟨hmachine, hfault⟩ := inStep_halt h hline
  rw [execute_eq, execute_eq]
  generalize m.halt a = x at hmachine hfault ⊢
  generalize n.halt b = y at hmachine hfault ⊢
  obtain ⟨m', fault?⟩ := x
  obtain ⟨n', fault?'⟩ := y
  have hclosed : m'.closeLine.Alike n'.closeLine := hmachine.toAlike.closeLine
  cases hfault with
  | none => exact ⟨rfl, hclosed⟩
  | some hf => exact ⟨rfl, hclosed.report _ _⟩

/-- Alike machines execute lines alike that differ in letter case only. -/
theorem Alike.execute (h : m.Alike n) (hline : ScansAlike a b) :
    (m.execute a).2 = (n.execute b).2 ∧
      List.Forall₂ EmittedAlike (m.emitted a) (n.emitted b) ∧
      (m.execute a).1.Alike (n.execute b).1 := by
  -- Alike machines may have emitted anything before, so their lines are compared without it.
  have htaken := h.takeOutput
  have hlines : List.Forall₂ EmittedAlike (m.emitted a) (n.emitted b) := by
    have hhalt := inStep_halt htaken hline
    rw [emitted_eq, emitted_eq, lines_execute, lines_execute, hhalt.machine.output]
    exact List.rel_append (List.forall₂_same.2 fun line _ => .same line) hhalt.diagnostics
  obtain ⟨houtcome, halike⟩ := htaken.execute hline
  obtain ⟨htakenM, hsameM⟩ := m.takeOutput_execute a
  obtain ⟨htakenN, hsameN⟩ := n.takeOutput_execute b
  have hmachine : (m.execute a).1.takeOutput.2.Alike (n.execute b).1.takeOutput.2 := by
    rw [← congrArg Prod.snd htakenM, ← congrArg Prod.snd htakenN]
    exact halike.takeOutput.toAlike
  rw [← hsameM, ← hsameN]
  exact ⟨houtcome, hlines, hmachine.of_takeOutput⟩

theorem lines_run (room : Nat) (ts : List Token) (m : Machine) :
    (run room ts m).1.output.lines =
      m.output.lines ++ (run room ts m.takeOutput.2).1.output.lines := by
  have hrun : run room ts m = _ := run_preceded room ts m.takeOutput.2 m.output
  rw [hrun]
  exact Output.lines_after _ _

/-- Alike tokens on alike machines emit alike lines. -/
theorem alike_run (h : m.Alike n) (room : Nat) (hts : BodiesAlike ts us) :
    Option.Rel Fault.Alike (run room ts m).2 (run room us n).2 ∧
      (run room ts m).1.Alike (run room us n).1 ∧
      ∃ lines, (run room ts m).1.output.lines = m.output.lines ++ lines ∧
        (run room us n).1.output.lines = n.output.lines ++ lines := by
  have hrunM : run room ts m = _ := run_preceded room ts m.takeOutput.2 m.output
  have hrunN : run room us n = _ := run_preceded room us n.takeOutput.2 n.output
  obtain ⟨hmachine, hfault⟩ := inStep_run room hts h.takeOutput
  refine ⟨?_, ?_, _, lines_run room ts m, ?_⟩
  · rw [hrunM, hrunN]
    exact hfault
  · rw [hrunM, hrunN]
    exact ⟨hmachine.stack, hmachine.control, hmachine.active, hmachine.limits, hmachine.dictionary,
      hmachine.compilation⟩
  · rw [lines_run, hmachine.output]

/-- Lines one after the other have alike answers. -/
theorem alike_lines (h : m.Alike n) {as bs : List String} (hlines : List.Forall₂ ScansAlike as bs) :
    List.Forall₂ Answer.Alike (m.answers as) (n.answers bs) ∧
      (m.afterLines as).Alike (n.afterLines bs) := by
  induction hlines generalizing m n with
  | nil => exact ⟨.nil, h⟩
  | cons hline _ ih =>
    obtain ⟨houtcome, hemitted, hnext⟩ := h.execute hline
    obtain ⟨hanswers, hlast⟩ := ih hnext
    exact ⟨.cons ⟨houtcome, hemitted⟩ hanswers, hlast⟩

/-- Letter case does not matter outside of quotes. Tokens that differ in the case of ASCII letters
only, and not where they are texts in quotes, do the same on machines whose stored tokens differ in
this way only: they end without a fault or with the same one, but for the letter case of the token
that an unknown word was written as, they emit the same lines, and the machines are alike again,
with the same operands and the same open control structures. So any number of lines with such tokens
end alike and emit the same, but for that token in the message. -/
theorem letter_case_is_ignored (h : m.Alike n) :
    (∀ room ts us, BodiesAlike ts us →
      Option.Rel Fault.Alike (run room ts m).2 (run room us n).2 ∧
        (run room ts m).1.Alike (run room us n).1 ∧
        ∃ lines, (run room ts m).1.output.lines = m.output.lines ++ lines ∧
          (run room us n).1.output.lines = n.output.lines ++ lines) ∧
    ∀ as bs, List.Forall₂ ScansAlike as bs →
      List.Forall₂ Answer.Alike (m.answers as) (n.answers bs) ∧
        (m.afterLines as).Alike (n.afterLines bs) :=
  ⟨fun room _ _ hts => alike_run h room hts, fun _ _ hlines => alike_lines h hlines⟩

/-- A defined word and an open definition in capital letters. -/
def capitals : Machine where
  dictionary := ({} : Dictionary).define "SQ" ["DUP", "*"]
  compilation := { compiling := true, name := some "CUBE", pending := ["DUP", "SQ"] }

/-- The same machine with small letters. -/
def smallLetters : Machine where
  dictionary := ({} : Dictionary).define "SQ" ["dup", "*"]
  compilation := { compiling := true, name := some "CUBE", pending := ["dup", "sq"] }

theorem letter_case_is_ignored_cube :
    capitals.Alike smallLetters ∧
    ScansAlike "* ; 3 CUBE ." "* ; 3 cube ." ∧
    ScansAlike "\x22Hi\x22 . FOO" "\x22Hi\x22 . foo" ∧
    List.Forall₂ Answer.Alike
      [(.done, [⟨.log, "27"⟩]), (.failed, [⟨.log, "Hi"⟩, ⟨.log, "Unknown word: FOO"⟩])]
      [(.done, [⟨.log, "27"⟩]), (.failed, [⟨.log, "Hi"⟩, ⟨.log, "Unknown word: foo"⟩])] := by
  have halike : capitals.Alike smallLetters :=
    ⟨rfl, rfl, rfl, rfl,
      (Dictionary.Alike.refl {}).define "SQ" (.cons (by decide) (.cons (by decide) .nil)),
      ⟨rfl, rfl, .cons (by decide) (.cons (by decide) .nil)⟩⟩
  have hcube : Token.scan "* ; 3 CUBE ." = .ok ["*", ";", "3", "CUBE", "."] ∧
      Token.scan "* ; 3 cube ." = .ok ["*", ";", "3", "cube", "."] := by decide +kernel
  have hfoo : Token.scan "\x22Hi\x22 . FOO" = .ok ["\x22Hi\x22", ".", "FOO"] ∧
      Token.scan "\x22Hi\x22 . foo" = .ok ["\x22Hi\x22", ".", "foo"] := by decide +kernel
  have hfirst : ScansAlike "* ; 3 CUBE ." "* ; 3 cube ." := by
    rw [ScansAlike, hcube.1, hcube.2]
    exact .cons (.refl _) <| .cons (.refl _) <| .cons (.refl _) <| .cons (by decide) <|
      .cons (.refl _) .nil
  have hsecond : ScansAlike "\x22Hi\x22 . FOO" "\x22Hi\x22 . foo" := by
    rw [ScansAlike, hfoo.1, hfoo.2]
    exact .cons (.refl _) (.cons (.refl _) (.cons (by decide) .nil))
  have hcapitals : capitals.answers ["* ; 3 CUBE .", "\x22Hi\x22 . FOO"] =
      [(.done, [⟨.log, "27"⟩]), (.failed, [⟨.log, "Hi"⟩, ⟨.log, "Unknown word: FOO"⟩])] := by
    decide +kernel
  have hsmall : smallLetters.answers ["* ; 3 cube .", "\x22Hi\x22 . foo"] =
      [(.done, [⟨.log, "27"⟩]), (.failed, [⟨.log, "Hi"⟩, ⟨.log, "Unknown word: foo"⟩])] := by
    decide +kernel
  obtain ⟨hanswers, -⟩ := (letter_case_is_ignored halike).2 _ _ (.cons hfirst (.cons hsecond .nil))
  rw [hcapitals, hsmall] at hanswers
  exact ⟨halike, hfirst, hsecond, hanswers⟩

end Machine

end StackLogic
