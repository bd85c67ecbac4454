import StackLogic.Proofs.Blocks

/-!
# The moments of a line

`run` is a recursion on the room for active words. Here the execution of a line is cut into single
moves instead, which know nothing of that room: the text that is being run and the texts around it
are kept in a list, a call is refused if too many words are active, and a fault is passed out word by
word. `Moment.next?` makes one move.

The moves are the run. After finitely many of them there is no next one, and the last moment is where
`run` stops (`exists_last`). A call comes back, and then the machine and the fault are what `run`
makes of the call (`call_returns`).

Before that, this module says what a step can do (`frame_step`, `keeps_step`) and what a run keeps
(`run_preserves`).
-/

namespace StackLogic.Machine

variable {m m' : Machine} {t : Token} {text ts rest body : List Token} {name : String}
  {depth : Nat} {P : Machine → Prop}

/-! ## Steps -/

/-- Wherever the step leads, `P` holds of the machine after it, or `C` of the call. -/
def Step.Leads (P : Machine → Prop) (C : String → List Token → Prop) : Step → Prop
  | .next m => P m
  | .fault _ m => P m
  | .call name body => C name body

/-- What a step leads to may be said with weaker properties. -/
theorem Step.Leads.mono {P Q : Machine → Prop} {C D : String → List Token → Prop} {step : Step}
    (h : step.Leads P C) (hPQ : ∀ m, P m → Q m) (hCD : ∀ name body, C name body → D name body) :
    step.Leads Q D := by
  cases step with
  | next m => exact hPQ m h
  | fault f m => exact hPQ m h
  | call name body => exact hCD name body h

/-- The second machine has the same active words and the same limits. -/
structure Framed (m m' : Machine) : Prop where
  active : m'.active = m.active
  limits : m'.limits = m.limits

/-- The second machine has the same definitions, too. -/
structure Keeps (m m' : Machine) : Prop extends Framed m m' where
  dictionary : m'.dictionary = m.dictionary
  compilation : m'.compilation = m.compilation

theorem Framed.trans {m₁ m₂ m₃ : Machine} (h : m₁.Framed m₂) (h' : m₂.Framed m₃) : m₁.Framed m₃ :=
  ⟨h'.active.trans h.active, h'.limits.trans h.limits⟩

theorem Keeps.refl (m : Machine) : m.Keeps m := ⟨⟨rfl, rfl⟩, rfl, rfl⟩

theorem Keeps.trans {m₁ m₂ m₃ : Machine} (h : m₁.Keeps m₂) (h' : m₂.Keeps m₃) : m₁.Keeps m₃ :=
  ⟨h.toFramed.trans h'.toFramed, h'.dictionary.trans h.dictionary,
    h'.compilation.trans h.compilation⟩

/-- Control words touch neither the definitions nor the active words. -/
theorem keeps_controlStep (m : Machine) (w : ControlWord) {C : String → List Token → Prop} :
    (m.controlStep w).Leads m.Keeps C := by
  unfold controlStep
  rcases w.run { control := m.control, stack := m.stack } with ⟨st, _ | f⟩
  · exact ⟨⟨rfl, rfl⟩, rfl, rfl⟩
  · exact ⟨⟨rfl, rfl⟩, rfl, rfl⟩

/-- A meaning keeps all definitions, or it is the body that is called. -/
theorem keeps_meaningStep (m : Machine) (name : String) (meaning : Meaning) :
    (m.meaningStep name meaning).Leads m.Keeps fun called body =>
      called = name ∧ meaning = .defined body := by
  cases meaning with
  | defined body => exact ⟨rfl, rfl⟩
  | primitive p =>
    have hstep : m.meaningStep name (.primitive p) = m.primitiveStep p := rfl
    rw [hstep, primitiveStep]
    cases p.run m.dictionary m.stack with
    | ok effect => exact ⟨⟨rfl, rfl⟩, rfl, rfl⟩
    | error f => exact .refl m

theorem keeps_get? {meaning : Meaning} (h : m.dictionary.get? name = some meaning) :
    (m.meaningStep name meaning).Leads m.Keeps fun called body =>
      m.dictionary.get? called = some (.defined body) := by
  refine (keeps_meaningStep m name meaning).mono (fun _ hk => hk) ?_
  rintro called body ⟨rfl, rfl⟩
  exact h

/-- `RECURSE` calls what the dictionary binds, and touches neither the definitions nor the active
words. -/
theorem keeps_recurseStep (m : Machine) :
    m.recurseStep.Leads m.Keeps fun called body =>
      m.dictionary.get? called = some (.defined body) := by
  unfold recurseStep
  split
  · exact .refl m
  · split
    next name _ _ meaning h => exact keeps_get? h
    next => exact .refl m

/-- Outside of definitions, every token but `:` keeps all definitions, or it calls a word with the
body that its name means. -/
theorem keeps_step (hd : m.compilation.compiling = false) (ht : Text.upper t ≠ ":") :
    (m.step t).Leads m.Keeps fun called body =>
      m.dictionary.get? called = some (.defined body) := by
  unfold step
  simp only [hd, Bool.false_eq_true, if_false]
  split
  · exact keeps_controlStep m _
  · split
    · exact .refl m
    · unfold plainStep
      rw [if_neg ht]
      split
      · exact .refl m
      · split
        · exact keeps_recurseStep m
        · split
          · exact ⟨⟨rfl, rfl⟩, rfl, rfl⟩
          · split
            next meaning h => exact keeps_get? h
            next =>
              split
              · exact ⟨⟨rfl, rfl⟩, rfl, rfl⟩
              · exact .refl m

/-- Outside of definitions, `:` calls nothing, and all it can do is open a definition. -/
theorem step_colon (hd : m.compilation.compiling = false) (ht : Text.upper t = ":") :
    m.step t = .next m ∨ m.step t = .next { m with compilation := .opened } := by
  have hcontrol : ControlWord.ofName? ":" = none := by decide
  unfold step
  simp only [hd, Bool.false_eq_true, if_false, ht, hcontrol]
  split
  · exact .inl rfl
  · exact .inr (by rw [plainStep, if_pos rfl])

/-- A step leaves the active words and the limits as they are. Only outside of definitions it calls
a word, and then with the body that the name of the word means. -/
theorem frame_step (m : Machine) (t : Token) :
    (m.step t).Leads m.Framed fun called body =>
      m.compilation.compiling = false ∧ Text.upper t ≠ ":" ∧
        m.dictionary.get? called = some (.defined body) := by
  cases hd : m.compilation.compiling with
  | true =>
    have hcompile : m.step t = m.compile t := by simp only [step, hd, if_true]
    rw [hcompile, compile]
    split
    · exact ⟨rfl, rfl⟩
    · split <;> · split <;> exact ⟨rfl, rfl⟩
  | false =>
    by_cases ht : Text.upper t = ":"
    · rcases step_colon hd ht with h | h <;> · rw [h]; exact ⟨rfl, rfl⟩
    · exact (keeps_step hd ht).mono (fun _ hk => hk.toFramed) fun _ _ h => ⟨rfl, ht, h⟩

/-! ## Runs -/

/-- What every step and every call keeps, a run keeps. -/
theorem runWith_preserves {call : String → List Token → Machine → Halt}
    (hstep : ∀ t ∈ ts, ∀ m, P m → (m.step t).Leads P fun name body => P (call name body m).1)
    (hm : P m) : P (runWith call ts m).1 := by
  induction ts generalizing m with
  | nil => exact hm
  | cons t rest ih =>
    obtain ⟨ht, hrest⟩ := List.forall_mem_cons.1 hstep
    have hfirst : P (runWith call [t] m).1 := by
      have hleads := ht m hm
      rw [runWith_singleton]
      cases hs : m.step t <;> · rw [hs] at hleads; exact hleads
    rw [runWith_cons]
    rcases hrun : runWith call [t] m with ⟨m', _ | f⟩
    · rw [hrun] at hfirst
      exact ih hrest hfirst
    · rw [hrun] at hfirst
      exact hfirst

/-- The machine when a word becomes active. -/
def enterWord (m : Machine) (name : String) : Machine := { m with active := name :: m.active }

/-- The machine when the innermost active word is over. -/
def leaveWord (m : Machine) : Machine := { m with active := m.active.tail }

/-- Carry out a call with room for so many more active words. -/
def callWithin (room : Nat) (name : String) (body : List Token) (m : Machine) : Halt :=
  match room with
  | 0 => (m, some (.callDepth m.limits.callDepth))
  | inner + 1 =>
    let halt := run inner body (m.enterWord name)
    (halt.1.leaveWord, halt.2)

/-- Calls in a run have less room. -/
theorem run_eq_runWith (room : Nat) : run room = runWith (callWithin room) := by
  cases room with
  | zero => rfl
  | succ inner => rfl

/-- What every step keeps, and every call for which there is room, a run keeps. -/
theorem run_preserves
    (hstep : ∀ t ∈ ts, ∀ m, P m → (m.step t).Leads P fun name body =>
      ∀ inner, depth = inner + 1 → P (run inner body (m.enterWord name)).1.leaveWord)
    (hm : P m) : P (run depth ts m).1 := by
  rw [run_eq_runWith]
  refine runWith_preserves (fun t ht m' hm' => ?_) hm
  refine (hstep t ht m' hm').mono (fun _ h => h) fun name body h => ?_
  cases depth with
  | zero => exact hm'
  | succ inner => exact h inner rfl

/-- After a run, with or without a fault, the same words are active, and the limits are the same. -/
theorem frame_run (room : Nat) (ts : List Token) (m : Machine) : m.Framed (run room ts m).1 := by
  induction room using Nat.strongRecOn generalizing ts m with
  | _ room ih =>
    refine run_preserves (P := m.Framed) (fun t _ m' hm' => ?_) ⟨rfl, rfl⟩
    refine (frame_step m' t).mono (fun _ h => hm'.trans h) fun name body _ inner hroom => ?_
    have hbody := ih inner (by omega) body (m'.enterWord name)
    exact hm'.trans ⟨congrArg List.tail hbody.active, hbody.limits⟩

/-- A call leaves the active words as they were and keeps the limits. -/
theorem frame_callWithin (room : Nat) (name : String) (body : List Token) (m : Machine) :
    m.Framed (callWithin room name body m).1 := by
  cases room with
  | zero => exact ⟨rfl, rfl⟩
  | succ inner =>
    have hbody := frame_run inner body (m.enterWord name)
    exact ⟨congrArg List.tail hbody.active, hbody.limits⟩

/-- Where the tokens of a line stop, before anything is said about how the line ended. -/
def halt (m : Machine) (line : String) : Halt := runLine { m with control := [], active := [] } line

/-- A line is run to its halt, and then closed or reported. -/
theorem execute_eq (m : Machine) (line : String) :
    m.execute line =
      match (m.halt line).2 with
      | none => ((m.halt line).1.closeLine, .done)
      | some f => ((m.halt line).1.closeLine.report f, .failed) := rfl

/-! ## Moments -/

/-- A text that is being run, and what is left of it after the call that is going on. -/
structure Caller where
  text : List Token
  rest : List Token

/-- A moment of the execution of a line. -/
structure Moment where
  /-- The tokens of the line, or of the body of the innermost active word. -/
  text : List Token
  /-- Those of them that are left. -/
  tokens : List Token
  /-- The texts around each active word, the innermost first. -/
  callers : List Caller
  /-- The machine at this moment. -/
  machine : Machine
  /-- The fault that is being passed out. -/
  fault? : Option Fault

namespace Moment

/-- The start of a line. -/
def start (m : Machine) (ts : List Token) : Moment :=
  ⟨ts, ts, [], { m with control := [], active := [] }, none⟩

/-- The moment after a token, or at the start of the body of the word that it calls. -/
def advance (p : Moment) (t : Token) (rest : List Token) : Moment :=
  match p.machine.step t with
  | .next m => { p with tokens := rest, machine := m }
  | .fault f m => { p with tokens := rest, machine := m, fault? := some f }
  | .call name body =>
    if p.machine.active.length < p.machine.limits.callDepth then
      ⟨body, body, ⟨p.text, rest⟩ :: p.callers, p.machine.enterWord name, none⟩
    else { p with tokens := rest, fault? := some (.callDepth p.machine.limits.callDepth) }

/-- The moment after the innermost active word, with the fault that is being passed out. -/
def leave? (p : Moment) : Option Moment :=
  match p.callers with
  | [] => none
  | caller :: outer =>
    some ⟨caller.text, caller.rest, outer, p.machine.leaveWord, p.fault?⟩

/-- The next moment, unless the line is over. -/
def next? (p : Moment) : Option Moment :=
  match p.fault?, p.tokens with
  | none, t :: rest => some (p.advance t rest)
  | _, _ => p.leave?

/-- The moment after so many moves, unless the line is over before. -/
def after (p : Moment) : Nat → Option Moment
  | 0 => some p
  | n + 1 => p.next?.bind fun q => q.after n

/-- How many more words may become active. -/
def room (p : Moment) : Nat :=
  p.machine.limits.callDepth - p.machine.active.length

variable {p q r : Moment} {outer callers : List Caller} {j k n : Nat}

/-- Moves may be counted in two parts. -/
theorem after_add (p : Moment) (j k : Nat) :
    p.after (j + k) = (p.after j).bind fun q => q.after k := by
  induction j generalizing p with
  | zero => rw [Nat.zero_add]; rfl
  | succ j ih =>
    rw [Nat.succ_add]
    show (p.next?.bind fun q => q.after (j + k)) = (p.next?.bind fun q => q.after j).bind _
    rw [Option.bind_assoc]
    congr 1
    funext q
    exact ih q

theorem after_one (h : p.next? = some q) : p.after 1 = some q := by
  show (p.next?.bind fun q => some q) = some q
  rw [h]
  rfl

theorem after_succ (h : p.after (n + 1) = some r) : ∃ q, p.after n = some q ∧ q.next? = some r := by
  rw [after_add] at h
  obtain ⟨q, hq, hr⟩ := Option.bind_eq_some_iff.1 h
  obtain ⟨s, hs, hsr⟩ := Option.bind_eq_some_iff.1 hr
  cases hsr
  exact ⟨q, hq, hs⟩

/-- What every move keeps holds at all later moments. -/
theorem after_preserves {Q : Moment → Prop} (hnext : ∀ p q, Q p → p.next? = some q → Q q)
    (hp : Q p) (h : p.after n = some q) : Q q := by
  induction n generalizing p with
  | zero =>
    cases h
    exact hp
  | succ n ih =>
    obtain ⟨r, hr, hq⟩ := Option.bind_eq_some_iff.1 h
    exact ih (hnext p r hp hr) hq

/-- A token makes the machine advance. -/
theorem next?_cons (text : List Token) (t : Token) (rest : List Token) (callers : List Caller)
    (m : Machine) :
    next? ⟨text, t :: rest, callers, m, none⟩ =
      some (advance ⟨text, t :: rest, callers, m, none⟩ t rest) := rfl

/-- A move passes a token, or it leaves the innermost active word. -/
theorem next?_cases (h : p.next? = some q) :
    (∃ t rest, p.fault? = none ∧ p.tokens = t :: rest ∧ q = p.advance t rest) ∨
      ∃ caller outer, p.callers = caller :: outer ∧
        q = ⟨caller.text, caller.rest, outer, p.machine.leaveWord, p.fault?⟩ := by
  have hleave : p.leave? = some q → ∃ caller outer, p.callers = caller :: outer ∧
      q = ⟨caller.text, caller.rest, outer, p.machine.leaveWord, p.fault?⟩ := by
    intro hq
    unfold leave? at hq
    split at hq
    next => cases hq
    next caller outer hcallers => exact ⟨caller, outer, hcallers, (Option.some.inj hq).symm⟩
  unfold next? at h
  split at h
  next t rest hfault htokens =>
    exact .inl ⟨t, rest, hfault, htokens, (Option.some.inj h).symm⟩
  next => exact .inr (hleave h)

/-! ## Bounded active words -/

/-- The limits are these, and there are no more active words than they allow. -/
structure Bounded (l : Limits) (p : Moment) : Prop where
  limits : p.machine.limits = l
  active : p.machine.active.length ≤ l.callDepth

theorem bounded_start (m : Machine) (ts : List Token) : (start m ts).Bounded m.limits :=
  ⟨rfl, Nat.zero_le _⟩

/-- A move keeps the active words bounded. -/
theorem Bounded.next {l : Limits} (hp : p.Bounded l) (h : p.next? = some q) : q.Bounded l := by
  obtain ⟨hlimits, hactive⟩ := hp
  have hframed : ∀ m', p.machine.Framed m' → m'.limits = l ∧ m'.active.length ≤ l.callDepth :=
    fun m' hm' => ⟨hm'.limits.trans hlimits, hm'.active.symm ▸ hactive⟩
  rcases next?_cases h with ⟨t, rest, -, -, rfl⟩ | ⟨caller, outer, -, rfl⟩
  · have hframe := frame_step p.machine t
    unfold advance
    cases hs : p.machine.step t with
    | next m' =>
      rw [hs] at hframe
      exact ⟨(hframed m' hframe).1, (hframed m' hframe).2⟩
    | fault f m' =>
      rw [hs] at hframe
      exact ⟨(hframed m' hframe).1, (hframed m' hframe).2⟩
    | call name body =>
      dsimp only
      split
      next hlt => exact ⟨hlimits, hlimits ▸ hlt⟩
      next => exact ⟨hlimits, hactive⟩
  · have htail : p.machine.leaveWord.active.length = p.machine.active.length - 1 := List.length_tail
    exact ⟨hlimits, by rw [htail]; omega⟩

/-- The bound holds at every later moment. -/
theorem bounded_of_after {l : Limits} (hp : p.Bounded l) (h : p.after n = some q) : q.Bounded l :=
  after_preserves (fun _ _ hp h => hp.next h) hp h

/-! ## Calls -/

/-- So many moves lead from one moment to another, and the calls in `outer` stay open. -/
structure Stays (outer : List Caller) (n : Nat) (p q : Moment) : Prop where
  reaches : p.after n = some q
  inside : ∀ k ≤ n, ∀ r, p.after k = some r → outer <:+ r.callers

theorem Stays.refl (h : outer <:+ p.callers) : Stays outer 0 p p where
  reaches := rfl
  inside k hk r hr := by
    obtain rfl : k = 0 := by omega
    cases hr
    exact h

/-- Callers that stay open in two parts of the moves stay open in both together. -/
theorem Stays.trans (h : Stays outer j p q) (h' : Stays outer k q r) :
    Stays outer (j + k) p r where
  reaches := by
    rw [after_add, h.reaches]
    exact h'.reaches
  inside i hi s hs := by
    by_cases hij : i ≤ j
    · exact h.inside i hij s hs
    · obtain ⟨d, rfl⟩ : ∃ d, i = j + d := ⟨i - j, by omega⟩
      rw [after_add, h.reaches] at hs
      exact h'.inside d (by omega) s hs

/-- A move keeps the callers open that are open before and after it. -/
theorem Stays.next (hnext : p.next? = some q) (hp : outer <:+ p.callers)
    (hq : outer <:+ q.callers) : Stays outer 1 p q where
  reaches := after_one hnext
  inside k hk r hr := by
    have hcases : k = 0 ∨ k = 1 := by omega
    rcases hcases with rfl | rfl
    · cases hr
      exact hp
    · rw [after_one hnext] at hr
      cases hr
      exact hq

/-- The call that is made next comes to an end after `n` moves inside of the word: then the tokens
after the call are to be run, or passed by a fault, for the first time, and the same words are active
as before. -/
structure ReturnsAfter (n : Nat) (p : Moment) (rest : List Token) (q : Moment) : Prop where
  text : q.text = p.text
  tokens : q.tokens = rest
  callers : q.callers = p.callers
  active : q.machine.active = p.machine.active
  reaches : p.after (n + 1) = some q
  inside : ∀ k r, 0 < k → k ≤ n → p.after k = some r → ⟨p.text, rest⟩ :: p.callers <:+ r.callers

/-- The call that is made next comes to an end. -/
def Returns (p : Moment) (rest : List Token) (q : Moment) : Prop := ∃ n, p.ReturnsAfter n rest q

/-- A call that comes back keeps its callers open. -/
theorem ReturnsAfter.stays (h : p.ReturnsAfter n rest q) : Stays p.callers (n + 1) p q where
  reaches := h.reaches
  inside k hk r hr := by
    rcases Nat.eq_zero_or_pos k with rfl | hpos
    · cases hr
      exact List.suffix_refl _
    · by_cases hkn : k ≤ n
      · exact (List.suffix_cons _ p.callers).trans (h.inside k r hpos hkn hr)
      · obtain rfl : k = n + 1 := by omega
        rw [h.reaches] at hr
        cases hr
        exact h.callers ▸ List.suffix_refl p.callers

/-! ## Moves and runs -/

/-- From here, the moves run the tokens to where `run` stops, without coming back to the callers. -/
def Runs (room : Nat) : Prop :=
  ∀ text ts callers (m : Machine), m.active.length + room = m.limits.callDepth →
    ∃ n rest, Stays callers n ⟨text, ts, callers, m, none⟩
      ⟨text, rest, callers, (run room ts m).1, (run room ts m).2⟩ ∧
        ((run room ts m).2 = none → rest = [])

/-- A call comes back, if the bodies that are run with less room come to their ends. -/
theorem call_returns_of_runs (hruns : ∀ inner, depth = inner + 1 → Runs inner)
    (hroom : m.active.length + depth = m.limits.callDepth) (hstep : m.step t = .call name body) :
    ∃ n, ReturnsAfter n ⟨text, t :: rest, callers, m, none⟩ rest
      ⟨text, rest, callers, (callWithin depth name body m).1, (callWithin depth name body m).2⟩ := by
  have hactive := (frame_callWithin depth name body m).active
  cases depth with
  | zero =>
    have hfull : ¬ m.active.length < m.limits.callDepth := by omega
    have hnext : next? ⟨text, t :: rest, callers, m, none⟩ =
        some ⟨text, rest, callers, m, some (.callDepth m.limits.callDepth)⟩ := by
      simp only [next?_cons, advance, hstep, if_neg hfull]
    exact ⟨0, rfl, rfl, rfl, rfl, after_one hnext, fun k r hpos hk => by omega⟩
  | succ inner =>
    have hlt : m.active.length < m.limits.callDepth := by omega
    have hnext : next? ⟨text, t :: rest, callers, m, none⟩ =
        some ⟨body, body, ⟨text, rest⟩ :: callers, m.enterWord name, none⟩ := by
      simp only [next?_cons, advance, hstep, if_pos hlt]
    have hinner : (m.enterWord name).active.length + inner =
        (m.enterWord name).limits.callDepth := by
      show m.active.length + 1 + inner = m.limits.callDepth
      omega
    obtain ⟨n, left, hstays, hleft⟩ :=
      hruns inner rfl body body (⟨text, rest⟩ :: callers) (m.enterWord name) hinner
    have hleave : next? ⟨body, left, ⟨text, rest⟩ :: callers,
          (run inner body (m.enterWord name)).1, (run inner body (m.enterWord name)).2⟩ =
        some ⟨text, rest, callers, (callWithin (inner + 1) name body m).1,
          (callWithin (inner + 1) name body m).2⟩ := by
      simp only [callWithin]
      cases hf : (run inner body (m.enterWord name)).2 with
      | none =>
        rw [hleft hf]
        rfl
      | some f => rfl
    have hback : after ⟨text, t :: rest, callers, m, none⟩ (n + 1 + 1) =
        some ⟨text, rest, callers, (callWithin (inner + 1) name body m).1,
          (callWithin (inner + 1) name body m).2⟩ := by
      rw [Nat.add_comm (n + 1) 1, after_add, after_one hnext]
      show after _ (n + 1) = _
      rw [after_add, hstays.reaches]
      exact after_one hleave
    refine ⟨n + 1, rfl, rfl, rfl, hactive, hback, fun k r hpos hk hr => ?_⟩
    obtain ⟨i, rfl⟩ : ∃ i, k = 1 + i := ⟨k - 1, by omega⟩
    rw [after_add, after_one hnext] at hr
    exact hstays.inside i (by omega) r hr

/-- The moves over one token lead to where `run` stops after it, in front of the other tokens. -/
theorem exists_stays_singleton (hruns : ∀ inner, depth = inner + 1 → Runs inner)
    (hroom : m.active.length + depth = m.limits.callDepth) :
    ∃ n, Stays callers n ⟨text, t :: rest, callers, m, none⟩
      ⟨text, rest, callers, (run depth [t] m).1, (run depth [t] m).2⟩ := by
  rw [run_eq_runWith, runWith_singleton]
  cases hs : m.step t with
  | next m' =>
    have hnext : next? ⟨text, t :: rest, callers, m, none⟩ =
        some ⟨text, rest, callers, m', none⟩ := by
      simp only [next?_cons, advance, hs]
    exact ⟨1, .next hnext (List.suffix_refl _) (List.suffix_refl _)⟩
  | fault f m' =>
    have hnext : next? ⟨text, t :: rest, callers, m, none⟩ =
        some ⟨text, rest, callers, m', some f⟩ := by
      simp only [next?_cons, advance, hs]
    exact ⟨1, .next hnext (List.suffix_refl _) (List.suffix_refl _)⟩
  | call name body =>
    obtain ⟨n, hreturns⟩ := call_returns_of_runs hruns hroom hs
    exact ⟨n + 1, hreturns.stays⟩

/-- The moves of a line lead to where `run` stops. -/
theorem runs (room : Nat) : Runs room := by
  -- calls have less room, and what is left of a line is shorter
  induction room using Nat.strongRecOn with
  | _ room ih =>
    intro text ts callers m hroom
    induction ts generalizing m with
    | nil =>
      have hrun : run room [] m = (m, none) := by cases room <;> rfl
      rw [hrun]
      exact ⟨0, [], .refl (List.suffix_refl _), fun _ => rfl⟩
    | cons t rest ihrest =>
      have hrun : run room (t :: rest) m = andThen (run room [t] m) (run room rest) := by
        simp only [run_eq_runWith, runWith_cons t rest]
      have hfirst : ∃ j, Stays callers j ⟨text, t :: rest, callers, m, none⟩
          ⟨text, rest, callers, (run room [t] m).1, (run room [t] m).2⟩ :=
        exists_stays_singleton (fun inner hinner => ih inner (by omega)) hroom
      obtain ⟨j, hj⟩ := hfirst
      have hframed := frame_run room [t] m
      rw [hrun]
      rcases hstop : run room [t] m with ⟨m', _ | f⟩
      · rw [hstop] at hj hframed
        obtain ⟨n, left, hstays, hleft⟩ :=
          ihrest m' (by rw [hframed.active, hframed.limits]; exact hroom)
        exact ⟨j + n, left, hj.trans hstays, hleft⟩
      · rw [hstop] at hj
        refine ⟨j, rest, hj, fun h => ?_⟩
        cases h

/-- The call that is made at a moment comes back, and then the machine and the fault are what `run`
makes of the token that calls. -/
theorem call_returns {l : Limits} (hp : p.Bounded l) (hfault : p.fault? = none)
    (htokens : p.tokens = t :: rest) (hstep : p.machine.step t = .call name body) :
    ∃ n q, p.ReturnsAfter n rest q ∧ run p.room [t] p.machine = (q.machine, q.fault?) := by
  obtain ⟨text, tokens, callers, m, f?⟩ := p
  obtain rfl : f? = none := hfault
  obtain rfl : tokens = t :: rest := htokens
  obtain ⟨hlimits, hactive⟩ := hp
  have hlimits : m.limits = l := hlimits
  have hactive : m.active.length ≤ l.callDepth := hactive
  have hroom : m.active.length + Moment.room ⟨text, t :: rest, callers, m, none⟩ =
      m.limits.callDepth := by
    simp only [Moment.room]
    rw [hlimits]
    omega
  obtain ⟨n, hreturns⟩ := call_returns_of_runs (fun inner _ => runs inner) hroom hstep
  refine ⟨n, _, hreturns, ?_⟩
  rw [run_eq_runWith, runWith_singleton]
  have hcall : m.step t = .call name body := hstep
  rw [hcall]
  rfl

end Moment

open Moment

/-- The moments of a line come to an end, and the last one is where the tokens of the line stop. -/
theorem exists_last (m : Machine) {line : String} (hscan : Token.scan line = .ok ts) :
    ∃ n last, (Moment.start m ts).after n = some last ∧ last.next? = none ∧
      m.halt line = (last.machine, last.fault?) := by
  have hroom : 0 + m.limits.callDepth = m.limits.callDepth := Nat.zero_add _
  have hhalt : m.halt line = run m.limits.callDepth ts { m with control := [], active := [] } := by
    simp only [halt, runLine, hscan]
  obtain ⟨n, rest, hstays, hrest⟩ :=
    runs m.limits.callDepth ts ts [] { m with control := [], active := [] } hroom
  refine ⟨n, _, hstays.reaches, ?_, hhalt⟩
  cases hfault : (run m.limits.callDepth ts { m with control := [], active := [] }).2 with
  | none =>
    rw [hrest hfault]
    rfl
  | some f => rfl

/-- Executing the line, the machine comes to this moment. -/
def Visits (m : Machine) (line : String) (p : Moment) : Prop :=
  ∃ ts k, Token.scan line = .ok ts ∧ (Moment.start m ts).after k = some p

end StackLogic.Machine
