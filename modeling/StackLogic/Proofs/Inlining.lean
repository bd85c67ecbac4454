import StackLogic.Proofs.Definitions

/-!
# Calling a word is running its body

The body of a word can stand in the place of the word: run at the same point, with the name of the
word in the place of `RECURSE`, it does the same as the word, unless too many words are active at once
(`run_recurseAs_body`).

The two runs differ in the active words, and only `RECURSE` looks at them: a run depends on nothing
but the innermost active word (`callWithin_under`). They also differ in the room for more active words:
with more of it, a run that has met no bound stays the same (`run_succ`).
-/

namespace StackLogic.Machine

variable {m m' : Machine} {t word : Token} {ts body : List Token} {name : String} {room : Nat}
  {names outer : List String} {d : Dictionary} {call call' : String → List Token → Machine → Halt}

/-! ## Other active words -/

/-- The machine with other active words. -/
def under (m : Machine) (names : List String) : Machine := { m with active := names }

/-- The step with other active words. -/
def Step.under (names : List String) : Step → Step
  | .next m => .next (m.under names)
  | .fault f m => .fault f (m.under names)
  | .call name body => .call name body

/-- The end of a run with other active words. -/
def Halt.under (names : List String) (h : Halt) : Halt := (h.1.under names, h.2)

/-- The machine with other active words and other limits. -/
def reframe (m : Machine) (names : List String) (l : Limits) : Machine :=
  { m with active := names, limits := l }

/-- The step to a changed machine. -/
def Step.map (f : Machine → Machine) : Step → Step
  | .next m => .next (f m)
  | .fault cause m => .fault cause (f m)
  | .call name body => .call name body

theorem compile_reframe (m : Machine) (names : List String) (l : Limits) (t : Token) :
    (m.reframe names l).compile t = (m.compile t).map (·.reframe names l) := by
  have hcompilation : (m.reframe names l).compilation = m.compilation := rfl
  unfold compile
  rw [hcompilation]
  split
  · rfl
  · cases m.compilation.name <;> · dsimp only; split <;> rfl

theorem controlStep_reframe (m : Machine) (names : List String) (l : Limits) (w : ControlWord) :
    (m.reframe names l).controlStep w = (m.controlStep w).map (·.reframe names l) := by
  have hrun : ∀ result : ControlState × Option Fault,
      w.run { control := m.control, stack := m.stack } = result →
      (m.reframe names l).controlStep w = (m.controlStep w).map (·.reframe names l) := by
    rintro ⟨st, _ | f⟩ h
    · simp only [controlStep, reframe, h, Step.map]
    · simp only [controlStep, reframe, h, Step.map]
  exact hrun _ rfl

theorem meaningStep_reframe (m : Machine) (names : List String) (l : Limits) (name : String)
    (meaning : Meaning) :
    (m.reframe names l).meaningStep name meaning =
      (m.meaningStep name meaning).map (·.reframe names l) := by
  cases meaning with
  | defined body => rfl
  | primitive p =>
    simp only [meaningStep, primitiveStep, reframe]
    cases p.run m.dictionary m.stack with
    | ok effect => rfl
    | error f => rfl

/-- `RECURSE` looks at the latest active word only. -/
theorem recurseStep_reframe (l : Limits) (h : names.head? = m.active.head?) :
    (m.reframe names l).recurseStep = m.recurseStep.map (·.reframe names l) := by
  have hactive : (m.reframe names l).active = names := rfl
  have hdictionary : (m.reframe names l).dictionary = m.dictionary := rfl
  unfold recurseStep
  rw [hactive, hdictionary]
  cases hm : m.active with
  | nil =>
    rw [hm, List.head?_nil, List.head?_eq_none_iff] at h
    rw [h]
    rfl
  | cons name outer =>
    rw [hm, List.head?_cons, List.head?_eq_some_iff] at h
    obtain ⟨others, rfl⟩ := h
    dsimp only
    cases m.dictionary.get? name with
    | none => rfl
    | some meaning => exact m.meaningStep_reframe (name :: others) l name meaning

/-- A step does not depend on the limits. It depends on the active words only if it is `RECURSE`, and
then on the innermost. -/
theorem step_reframe (names : List String) (l : Limits)
    (h : Text.upper t = "RECURSE" → names.head? = m.active.head?) :
    (m.reframe names l).step t = (m.step t).map (·.reframe names l) := by
  have hcompilation : (m.reframe names l).compilation = m.compilation := rfl
  have hskip : (m.reframe names l).control = m.control := rfl
  have hget : (m.reframe names l).dictionary = m.dictionary := rfl
  unfold step
  rw [hcompilation]
  split
  next => exact m.compile_reframe names l t
  next =>
    dsimp only
    split
    · exact m.controlStep_reframe names l _
    · rw [hskip]
      split
      · rfl
      · unfold plainStep
        split
        · rfl
        · split
          · rfl
          · split
            next hrecurse => exact recurseStep_reframe l (h hrecurse)
            next =>
              split
              · rfl
              · rw [hget]
                cases m.dictionary.get? (Text.upper t) with
                | some meaning => exact m.meaningStep_reframe names l _ meaning
                | none => cases Value.ofLiteral? t <;> rfl

/-- A step looks at the latest active word only. -/
theorem step_under (h : Text.upper t = "RECURSE" → names.head? = m.active.head?) :
    (m.under names).step t = (m.step t).under names := by
  have hreframe : (m.under names).step t = (m.step t).map (·.reframe names m.limits) :=
    step_reframe names m.limits h
  have hframe := frame_step m t
  rw [hreframe]
  cases hs : m.step t with
  | next m' | fault f m' =>
    rw [hs] at hframe
    have hlimits : m'.limits = m.limits := hframe.limits
    simp only [Step.map, Step.under, reframe, under, ← hlimits]
  | call name body => rfl

/-- If a token is replaced by another one that does the same on a changed machine, and `P` holds
throughout, then a list of tokens does the same on the changed machine. -/
theorem runWith_map {f : Machine → Machine} {g : Token → Token} {P : Machine → Prop}
    (hstep : ∀ t ∈ ts, ∀ m, P m → P (runWith call [t] m).1 ∧
      runWith call' [g t] (f m) = (f (runWith call [t] m).1, (runWith call [t] m).2))
    (hm : P m) :
    runWith call' (ts.map g) (f m) = (f (runWith call ts m).1, (runWith call ts m).2) := by
  induction ts generalizing m with
  | nil => rfl
  | cons t rest ih =>
    obtain ⟨ht, hrest⟩ := List.forall_mem_cons.1 hstep
    obtain ⟨hP, hfirst⟩ := ht m hm
    rw [List.map_cons, runWith_cons, runWith_cons t, hfirst]
    rcases hrun : runWith call [t] m with ⟨m', _ | fault⟩
    · rw [hrun] at hP
      exact ih hrest hP
    · rfl

/-- A token and its call look at the latest active word only, if calls do not look further. -/
theorem runWith_singleton_under
    (h : Text.upper t = "RECURSE" → names.head? = m.active.head?)
    (hcall : ∀ name body, call name body (m.under names) = (call name body m).under names) :
    runWith call [t] (m.under names) = (runWith call [t] m).under names := by
  rw [runWith_singleton, runWith_singleton, step_under h]
  cases m.step t with
  | next => rfl
  | fault => rfl
  | call name body => exact hcall name body

/-- A call does not depend on the words that are active already. -/
theorem callWithin_under (room : Nat) (name : String) (body : List Token) (m : Machine)
    (names : List String) :
    callWithin room name body (m.under names) = (callWithin room name body m).under names := by
  induction room generalizing name body m names with
  | zero => rfl
  | succ inner ih =>
    have hrun : run inner (body.map id) ((m.enterWord name).under (name :: names)) =
        (run inner body (m.enterWord name)).under (name :: names) := by
      rw [run_eq_runWith]
      refine runWith_map (f := fun m' => m'.under (name :: names))
        (P := fun m' => m'.active = name :: m.active) (fun t _ m' hm' => ⟨?_, ?_⟩) rfl
      · rw [← run_eq_runWith, (frame_run _ _ _).active, hm']
      · exact runWith_singleton_under (fun _ => by rw [hm']; rfl) fun called inside =>
          ih called inside m' (name :: names)
    have henter : (m.under names).enterWord name = (m.enterWord name).under (name :: names) := rfl
    rw [List.map_id] at hrun
    simp only [callWithin, henter, hrun]
    rfl

/-! ## More room for active words -/

/-- The run was ended because too many words were active at once. -/
def Halt.Exceeded (h : Halt) : Prop := ∃ limit, h.2 = some (.callDepth limit)

/-- Runs are the same if calls are, except those that have too little room. -/
theorem runWith_congr (hcall : ∀ name body m, ¬ (call name body m).Exceeded →
      call' name body m = call name body m)
    (h : ¬ (runWith call ts m).Exceeded) : runWith call' ts m = runWith call ts m := by
  induction ts generalizing m with
  | nil => rfl
  | cons t rest ih =>
    have hfirst : ¬ (runWith call [t] m).Exceeded → runWith call' [t] m = runWith call [t] m := by
      rw [runWith_singleton, runWith_singleton]
      cases m.step t with
      | next => exact fun _ => rfl
      | fault => exact fun _ => rfl
      | call name body => exact hcall name body m
    rw [runWith_cons t rest] at h
    rw [runWith_cons t rest, runWith_cons t rest]
    rcases hrun : runWith call [t] m with ⟨m', _ | fault⟩
    · rw [hrun] at h hfirst
      rw [hfirst (by rintro ⟨limit, hlimit⟩; cases hlimit)]
      exact ih h
    · rw [hrun] at h hfirst
      rw [hfirst h]
      rfl

/-- One more active word does not change a call that had room. -/
theorem callWithin_succ (h : ¬ (callWithin room name body m).Exceeded) :
    callWithin (room + 1) name body m = callWithin room name body m := by
  induction room generalizing name body m with
  | zero => exact absurd ⟨_, rfl⟩ h
  | succ inner ih =>
    have hrun : run (inner + 1) body (m.enterWord name) = run inner body (m.enterWord name) := by
      rw [run_eq_runWith, run_eq_runWith]
      refine runWith_congr (fun called inside m' h' => ih h') ?_
      rw [← run_eq_runWith]
      exact h
    simp only [callWithin, hrun]

/-- With more room, a run that has not met its bound stays the same. -/
theorem run_succ (h : ¬ (run room ts m).Exceeded) : run (room + 1) ts m = run room ts m := by
  rw [run_eq_runWith] at h ⊢
  rw [run_eq_runWith]
  exact runWith_congr (fun _ _ _ h' => callWithin_succ h') h

/-! ## Words and their bodies -/

/-- The token is looked up in the dictionary when it is run: it is no control word, no mark of a
definition, not `RECURSE` and no text in quotes. -/
structure IsWord (t : Token) : Prop where
  not_control : ControlWord.ofName? (Text.upper t) = none
  ne_colon : Text.upper t ≠ ":"
  ne_semicolon : Text.upper t ≠ ";"
  ne_recurse : Text.upper t ≠ "RECURSE"
  not_quoted : t.isQuoted = false

theorem IsWord.upper (h : IsWord t) : IsWord (Text.upper t) where
  not_control := by rw [Text.upper_upper]; exact h.not_control
  ne_colon := by rw [Text.upper_upper]; exact h.ne_colon
  ne_semicolon := by rw [Text.upper_upper]; exact h.ne_semicolon
  ne_recurse := by rw [Text.upper_upper]; exact h.ne_recurse
  not_quoted := by
    have hquoted := h.not_quoted
    rw [Bool.eq_false_iff] at hquoted ⊢
    exact mt Token.isQuoted_of_upper hquoted

/-- The tokens with a word in the place of `RECURSE`. -/
def recurseAs (word : Token) (ts : List Token) : List Token :=
  ts.map fun t => if Text.upper t = "RECURSE" then word else t

/-- A word that is bound to a body calls it, unless it is skipped. -/
theorem step_word (hd : m.compilation.compiling = false) (ht : IsWord t)
    (hbody : m.dictionary.get? (Text.upper t) = some (.defined body)) :
    m.step t = if m.control.isSkipping then .next m else .call (Text.upper t) body := by
  simp only [step, hd, Bool.false_eq_true, if_false, ht.not_control]
  split
  · rfl
  · rw [plainStep, if_neg ht.ne_colon, if_neg ht.ne_semicolon, if_neg ht.ne_recurse,
      if_neg (by simp [ht.not_quoted]), hbody]
    rfl

/-- Inside of a word, tokens do the same as outside of it with the word in the place of `RECURSE`. -/
theorem run_recurseAs (hd : m.compilation.compiling = false) (hu : m.dictionary.Unmarked)
    (hts : Unmarked ts)
    (hword : IsWord word) (hupper : Text.upper word = word) (hactive : m.active = word :: outer)
    (hbody : m.dictionary.get? word = some (.defined body)) :
    run room (recurseAs word ts) (m.under names) = (run room ts m).under names := by
  have hcompiling : ∀ m', m.Keeps m' → m'.compilation.compiling = false := fun m' hm' =>
    (congrArg Compilation.compiling hm'.compilation).trans hd
  rw [run_eq_runWith]
  refine runWith_map (f := fun m' => m'.under names) (P := m.Keeps)
    (fun t hmem m' hm' => ⟨?_, ?_⟩) (.refl m)
  · have hne : ∀ t' ∈ [t], Text.upper t' ≠ ":" := fun t' ht' =>
      List.mem_singleton.1 ht' ▸ hts.upper_ne hmem
    rw [← run_eq_runWith]
    exact hm'.trans (run_keeps room (hcompiling m' hm') (hm'.dictionary ▸ hu) hne)
  · split
    next hrecurse =>
      have hget : m'.dictionary.get? word = some (.defined body) := hm'.dictionary ▸ hbody
      have hsame : (m'.under names).step word = (m'.step t).under names := by
        rw [step_recurse (hcompiling m' hm') hrecurse (hm'.active.trans hactive) hget,
          step_word (m := m'.under names) (hcompiling m' hm') hword (by rw [hupper]; exact hget),
          hupper]
        show (if m'.control.isSkipping = true then _ else _) = _
        split <;> rfl
      rw [runWith_singleton, runWith_singleton, hsame]
      cases m'.step t with
      | next => rfl
      | fault => rfl
      | call called inside => exact callWithin_under room called inside m' names
    next hrecurse =>
      exact runWith_singleton_under (fun h => absurd h hrecurse) fun called inside =>
        callWithin_under room called inside m' names

/-- Where nothing is skipped and no definition is open, a word does the same as its body with the
word in the place of `RECURSE`. -/
theorem run_recurseAs_body (hd : m.compilation.compiling = false)
    (hs : m.control.isSkipping = false)
    (hu : m.dictionary.Unmarked) (ht : IsWord t)
    (hbody : m.dictionary.get? (Text.upper t) = some (.defined body))
    (h : ¬ (run room [t] m).Exceeded) :
    run room (recurseAs (Text.upper t) body) m = run room [t] m := by
  have hstep : run room [t] m = callWithin room (Text.upper t) body m := by
    rw [run_eq_runWith, runWith_singleton, step_word hd ht hbody, if_neg (by simp [hs])]
    rfl
  rw [hstep] at h ⊢
  cases room with
  | zero => exact absurd ⟨_, rfl⟩ h
  | succ inner =>
    have hactive := (frame_run inner body (m.enterWord (Text.upper t))).active
    -- with the room that the call leaves to the body, the runs agree, and more room changes nothing
    have hinner : run inner (recurseAs (Text.upper t) body) m =
        callWithin (inner + 1) (Text.upper t) body m := by
      have hrun : run inner (recurseAs (Text.upper t) body)
          ((m.enterWord (Text.upper t)).under m.active) =
            (run inner body (m.enterWord (Text.upper t))).under m.active :=
        run_recurseAs hd hu (hu.of_get? hbody) ht.upper (Text.upper_upper t) rfl hbody
      have hunder : (m.enterWord (Text.upper t)).under m.active = m := rfl
      rw [hunder] at hrun
      rw [hrun, callWithin, Halt.under, leaveWord, hactive]
      rfl
    rw [← hinner] at h ⊢
    exact run_succ h

/-! ## Definitions in between -/

/-- The machine while the definition of `name` is open. -/
def defining (m : Machine) (name : String) (body : List Token) : Machine :=
  { m with compilation := { compiling := true, name := some name, pending := body } }

/-- Tokens without marks are added to the open definition. -/
theorem runWith_defining (ht : Unmarked ts) :
    runWith call ts (m.defining name body) = (m.defining name (body ++ ts), none) := by
  induction ts generalizing body with
  | nil => rw [List.append_nil, runWith]
  | cons t rest ih =>
    obtain ⟨hcolon, hsemicolon⟩ := ht
    have hne : t ≠ ":" ∧ t ≠ ";" := by
      constructor
      · rintro rfl
        exact hcolon List.mem_cons_self
      · rintro rfl
        exact hsemicolon List.mem_cons_self
    have hrest : Unmarked rest :=
      ⟨fun h => hcolon (List.mem_cons_of_mem _ h), fun h => hsemicolon (List.mem_cons_of_mem _ h)⟩
    have hstep : (m.defining name body).step t = .next (m.defining name (body ++ [t])) := by
      simp only [step, defining, compile, if_true, if_neg hne.1, if_neg hne.2]
    rw [runWith, hstep]
    dsimp only
    rw [ih hrest, List.append_assoc, List.singleton_append]

/-- Running a definition adds it to the dictionary and does nothing else. -/
theorem run_definition (room : Nat) (hd : m.compilation = .closed)
    (hs : m.control.isSkipping = false) {x : Token} (hcolon : x ≠ ":") (hsemicolon : x ≠ ";")
    (ht : Unmarked ts) :
    run room (":" :: x :: (ts ++ [";"])) m =
      ({ m with dictionary := m.dictionary.define (Text.upper x) ts }, none) := by
  have hupper : Text.upper ":" = ":" := by decide
  have hcontrol : ControlWord.ofName? ":" = none := by decide
  have hcompiling : m.compilation.compiling = false := by rw [hd]; rfl
  have hopen : m.step ":" = .next { m with compilation := .opened } := by
    simp only [step, hcompiling, hupper, hcontrol, hs, Bool.false_eq_true, if_false, plainStep]
    rfl
  have hname : Machine.step { m with compilation := .opened } x =
      .next (m.defining (Text.upper x) []) := by
    simp only [step, compile, Compilation.opened, if_true, if_neg hcolon, if_neg hsemicolon]
    rfl
  have hend : (m.defining (Text.upper x) ts).step ";" = .next
      { m with dictionary := m.dictionary.define (Text.upper x) ts, compilation := .closed } := by
    simp only [step, defining, compile, if_true]
    rfl
  rw [run_eq_runWith, runWith, hopen]
  dsimp only
  rw [runWith, hname]
  dsimp only
  rw [runWith_append, runWith_defining ht, andThen_none, List.nil_append, runWith_singleton, hend,
    ← hd]
  rfl

/-- Calling a word is running its body. At every moment of every line where no definition is open and
nothing is skipped, a token that means a defined word can be replaced by the body with the word in the
place of `RECURSE`, and the run ends with the same fault or none and with the same machine, unless
too many words are active at once. The same holds after another word has been defined anew, so the
new meaning counts wherever the body uses that word. -/
theorem run_word_eq_run_body {m : Machine} (hm : Reachable m) {line : String} {p : Moment}
    (hp : m.Visits line p) (hd : p.machine.compilation.compiling = false)
    (hs : p.machine.control.isSkipping = false) {t : Token} (ht : IsWord t) {body : List Token}
    (hbody : p.machine.dictionary.get? (Text.upper t) = some (.defined body)) :
    ((∀ limit, (run p.room [t] p.machine).2 ≠ some (.callDepth limit)) →
      run p.room (recurseAs (Text.upper t) body) p.machine = run p.room [t] p.machine) ∧
    ∀ x ts, x ≠ ":" → x ≠ ";" → Unmarked ts → Text.upper x ≠ Text.upper t →
      ∃ m', run p.room (":" :: x :: (ts ++ [";"])) p.machine = (m', none) ∧
        m'.dictionary.get? x = some (.defined ts) ∧
        ((∀ limit, (run p.room [t] m').2 ≠ some (.callDepth limit)) →
          run p.room (recurseAs (Text.upper t) body) m' = run p.room [t] m') := by
  have hsettled := (hp.sound hm.settled).settled
  refine ⟨fun h => ?_, fun x ts hcolon hsemicolon hts hne => ?_⟩
  · exact run_recurseAs_body hd hs hsettled.dictionary ht hbody fun ⟨limit, hl⟩ => h limit hl
  · have hclosed := hsettled.compilation.eq_closed hd
    refine ⟨_, run_definition p.room hclosed hs hcolon hsemicolon hts, ?_, fun h => ?_⟩
    · simp only [Dictionary.get?_define, Text.upper_upper, if_true]
    · refine run_recurseAs_body hd hs ?_ ht ?_ fun ⟨limit, hl⟩ => h limit hl
      · exact hsettled.dictionary.define hts
      · simp only [Dictionary.get?_define, Text.upper_upper]
        rw [if_neg (Ne.symm hne)]
        exact hbody

/-- The moment before the word in `2 Down`. -/
def beforeDown : Moment where
  text := ["2", "Down"]
  tokens := ["Down"]
  callers := []
  machine := { countingDown with stack := [.int 2] }
  fault? := none

theorem visits_beforeDown : countingDown.Visits "2 Down" beforeDown := by
  have hscan : Token.scan "2 Down" = .ok ["2", "Down"] := by decide +kernel
  refine ⟨_, 1, hscan, ?_⟩
  rw [beforeDown, countingDown_eq]
  rfl

/-- On a 2, `Down` counts to 0, and so does `dup if 1 - DOWN then`. After `: dup 0 ;` both leave the 2
as it is, because the condition is then 0. -/
theorem run_word_eq_run_body_countdown :
    Reachable countingDown ∧ countingDown.Visits "2 Down" beforeDown ∧ IsWord "Down" ∧
      run 128 ["dup", "if", "1", "-", "DOWN", "then"] beforeDown.machine =
        ({ countingDown with stack := [.int 0] }, none) ∧
      ∃ m', run 128 [":", "dup", "0", ";"] beforeDown.machine = (m', none) ∧
        m'.stack = [.int 2] ∧ run 128 ["dup", "if", "1", "-", "DOWN", "then"] m' = (m', none) := by
  have hword : IsWord "Down" := by constructor <;> decide +kernel
  have hclosed : beforeDown.machine.compilation.compiling = false := by decide +kernel
  have hskip : beforeDown.machine.control.isSkipping = false := by decide +kernel
  have hbody : beforeDown.machine.dictionary.get? (Text.upper "Down") =
      some (.defined ["dup", "if", "1", "-", "recurse", "then"]) := by decide +kernel
  have hinlined : recurseAs (Text.upper "Down") ["dup", "if", "1", "-", "recurse", "then"] =
      ["dup", "if", "1", "-", "DOWN", "then"] := by decide +kernel
  have hnow : run 128 ["Down"] beforeDown.machine =
      ({ countingDown with stack := [.int 0] }, none) := by decide +kernel
  have hthen : run 128 ["Down"] (run 128 [":", "dup", "0", ";"] beforeDown.machine).1 =
      ((run 128 [":", "dup", "0", ";"] beforeDown.machine).1, none) := by decide +kernel
  have hroom : beforeDown.room = 128 := by decide +kernel
  have hends : ∀ {h : Halt} {m : Machine} {limit : Nat}, h = (m, none) →
      h.2 ≠ some (.callDepth limit) := by
    rintro h m limit rfl hlimit
    cases hlimit
  obtain ⟨hsame, hlater⟩ := run_word_eq_run_body reachable_countingDown visits_beforeDown hclosed
    hskip hword hbody
  rw [hroom] at hsame hlater
  obtain ⟨m', hdefined, -, hlater⟩ := hlater "dup" ["0"] (by decide) (by decide)
    (by simp [Unmarked]) (by decide +kernel)
  have hm' : (run 128 [":", "dup", "0", ";"] beforeDown.machine).1 = m' := congrArg Prod.fst hdefined
  have hstack : (run 128 [":", "dup", "0", ";"] beforeDown.machine).1.stack = [.int 2] := by
    decide +kernel
  rw [hm'] at hthen hstack
  rw [hinlined] at hsame hlater
  refine ⟨reachable_countingDown, visits_beforeDown, hword, ?_, m', hdefined, hstack, ?_⟩
  · exact (hsame fun limit => hends hnow).trans hnow
  · exact (hlater fun limit => hends hthen).trans hthen

end StackLogic.Machine
