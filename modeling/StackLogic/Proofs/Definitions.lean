import StackLogic.Proofs.Moments
import StackLogic.Proofs.UpperCase

/-!
# Definitions do not change while a word runs

A definition is opened by `:` and closed by `;`, and a body never holds either of them: an open
definition gives up at `:` and ends at `;`. So no body can open a definition, and while a word runs,
the dictionary and the open definition stay as they are (`Moment.Sound.next`).

At a moment inside of a word, the name of the word still means the text that is being run, and so do
the names of all words around it the texts to which the run comes back (`Nested`). `RECURSE` therefore
runs the same text again.
-/

namespace StackLogic.Machine

/-! ## Tokens of bodies -/

/-- Neither `:` nor `;` is among the tokens. -/
def Unmarked (ts : List Token) : Prop := ":" ∉ ts ∧ ";" ∉ ts

/-- No body holds `:` or `;`. -/
def Dictionary.Unmarked (d : Dictionary) : Prop :=
  ∀ name body, (name, .defined body) ∈ d.words → Machine.Unmarked body

/-- Every primitive name has a meaning: the primitive word, or a definition in its place. -/
def Dictionary.Covers (d : Dictionary) : Prop :=
  ∀ p : Primitive,
    d.get? p.name = some (.primitive p) ∨ ∃ body, d.get? p.name = some (.defined body)

/-- A definition has a name only if it is open, and tokens only if it has a name. -/
structure Compilation.WellFormed (c : Compilation) : Prop where
  closed : c.compiling = false → c.name = none ∧ c.pending = []
  unnamed : c.name = none → c.pending = []

/-- What lines leave behind. -/
structure Settled (m : Machine) : Prop where
  dictionary : m.dictionary.Unmarked
  covers : m.dictionary.Covers
  pending : Unmarked m.compilation.pending
  compilation : m.compilation.WellFormed

variable {m m' : Machine} {t : Token} {ts text rest body : List Token} {name : String}
  {outer : List String} {d : Dictionary}

theorem unmarked_nil : Unmarked [] := ⟨List.not_mem_nil, List.not_mem_nil⟩

theorem Unmarked.append_singleton (h : Unmarked ts) (hcolon : t ≠ ":") (hsemicolon : t ≠ ";") :
    Unmarked (ts ++ [t]) :=
  ⟨by simpa using ⟨h.1, hcolon.symm⟩, by simpa using ⟨h.2, hsemicolon.symm⟩⟩

/-- A token that is no `:` has no upper case `:` either. -/
theorem Unmarked.upper_ne (h : Unmarked ts) (ht : t ∈ ts) : Text.upper t ≠ ":" := fun hupper =>
  h.1 (Text.eq_colon_of_upper hupper ▸ ht)

/-- A definition without marks keeps all definitions without marks. -/
theorem Dictionary.Unmarked.define (hd : d.Unmarked) (hbody : Machine.Unmarked body) :
    (d.define name body).Unmarked := by
  intro key tokens hentry
  rcases Table.mem_of_mem_insert hentry with heq | hmem
  · cases heq
    exact hbody
  · exact hd key tokens hmem

/-- The body that a word is bound to has no marks. -/
theorem Dictionary.Unmarked.of_get? (hd : d.Unmarked) (h : d.get? name = some (.defined body)) :
    Machine.Unmarked body :=
  hd (Text.upper name) body (Table.mem_of_lookup_eq_some h)

/-- A definition does not take the meaning of a fixed word away. -/
theorem Dictionary.Covers.define (hd : d.Covers) : (d.define name body).Covers := by
  intro p
  rw [get?_define]
  split
  · exact .inr ⟨body, rfl⟩
  · exact hd p

/-- The dictionary that holds nothing but the primitive words. -/
theorem Dictionary.unmarked_new : Dictionary.Unmarked {} := by
  intro name body h
  obtain ⟨p, -, hp⟩ := List.mem_map.1 h
  cases hp

theorem Dictionary.covers_new : Dictionary.Covers {} := by
  intro p
  have hupper : Text.upper p.name = p.name := by cases p <;> decide +kernel
  rw [get?_new, hupper, Primitive.ofName?_name]
  exact .inl rfl

theorem Compilation.wellFormed_closed : Compilation.closed.WellFormed :=
  ⟨fun _ => ⟨rfl, rfl⟩, fun _ => rfl⟩

/-- Without a definition there is neither a name nor a pending token. -/
theorem Compilation.WellFormed.eq_closed {c : Compilation} (h : c.WellFormed)
    (hc : c.compiling = false) : c = .closed := by
  obtain ⟨compiling, called, pending⟩ := c
  obtain ⟨hname, hpending⟩ := h.closed hc
  cases hc
  cases hname
  cases hpending
  rfl

theorem Settled.of_eq (h : m.Settled) (hdictionary : m'.dictionary = m.dictionary)
    (hcompilation : m'.compilation = m.compilation) : m'.Settled :=
  ⟨hdictionary ▸ h.dictionary, hdictionary ▸ h.covers, hcompilation ▸ h.pending,
    hcompilation ▸ h.compilation⟩

/-- A token inside of a definition leaves no `:` and no `;` behind, and it calls nothing. -/
theorem settled_compile (hm : m.Settled) (hd : m.compilation.compiling = true) :
    (m.compile t).Leads Settled fun _ _ => False := by
  have hclosed : Settled { m with compilation := .closed } :=
    ⟨hm.dictionary, hm.covers, unmarked_nil, Compilation.wellFormed_closed⟩
  have hopen : ∀ {P : Prop}, m.compilation.compiling = false → P := fun h => by
    rw [hd] at h
    cases h
  unfold compile
  split
  next => exact hclosed
  next hcolon =>
    split
    next hname =>
      have hpending : m.compilation.pending = [] := hm.compilation.unnamed hname
      split
      · exact hclosed
      · exact ⟨hm.dictionary, hm.covers, hm.pending, ⟨hopen, fun _ => hpending⟩⟩
    next name hname =>
      split
      next =>
        exact ⟨hm.dictionary.define hm.pending, hm.covers.define, unmarked_nil,
          Compilation.wellFormed_closed⟩
      next hsemicolon =>
        refine ⟨hm.dictionary, hm.covers, hm.pending.append_singleton hcolon hsemicolon,
          ⟨hopen, fun h => ?_⟩⟩
        have hnone : m.compilation.name = none := h
        rw [hname] at hnone
        cases hnone

/-- What a step leads to is settled. -/
theorem settled_step (hm : m.Settled) : (m.step t).Leads Settled fun _ _ => True := by
  cases hd : m.compilation.compiling with
  | true =>
    have hcompile : m.step t = m.compile t := by simp only [step, hd, if_true]
    rw [hcompile]
    exact (settled_compile hm hd).mono (fun _ h => h) fun _ _ _ => trivial
  | false =>
    by_cases ht : Text.upper t = ":"
    · rcases step_colon hd ht with h | h
      · rw [h]
        exact hm
      · rw [h]
        exact ⟨hm.dictionary, hm.covers, unmarked_nil, ⟨fun h => (by cases h), fun _ => rfl⟩⟩
    · refine (keeps_step hd ht).mono (fun m' hk => ?_) fun _ _ _ => trivial
      exact hm.of_eq hk.dictionary hk.compilation

/-- `RECURSE` calls the latest active word with the body that it is bound to. -/
theorem step_recurse (hd : m.compilation.compiling = false) (ht : Text.upper t = "RECURSE")
    (hactive : m.active = name :: outer) (hbody : m.dictionary.get? name = some (.defined body)) :
    m.step t = if m.control.isSkipping then .next m else .call name body := by
  have hcontrol : ControlWord.ofName? "RECURSE" = none := by decide
  simp only [step, hd, Bool.false_eq_true, if_false, ht, hcontrol]
  split
  · rfl
  · rw [plainStep, if_neg (by decide), if_neg (by decide), if_pos rfl, recurseStep, hactive]
    simp only [hbody]
    rfl

/-- Outside of definitions, a run of unmarked tokens keeps all definitions if no body is marked. -/
theorem run_keeps (room : Nat) (hd : m.compilation.compiling = false) (hu : m.dictionary.Unmarked)
    (hts : ∀ t ∈ ts, Text.upper t ≠ ":") : m.Keeps (run room ts m).1 := by
  induction room using Nat.strongRecOn generalizing ts m with
  | _ room ih =>
    refine run_preserves (fun t ht m' hm' => ?_) (.refl m)
    have hd' : m'.compilation.compiling = false := by rw [hm'.compilation, hd]
    refine (keeps_step hd' (hts t ht)).mono (fun _ h => hm'.trans h) ?_
    intro name body hget inner hroom
    -- the word that is called runs under the same dictionary, so its body is not marked either
    have hu' : m'.dictionary.Unmarked := hm'.dictionary ▸ hu
    have hbody : (m'.enterWord name).Keeps (run inner body (m'.enterWord name)).1 :=
      ih inner (by omega) hd' hu' fun t ht => (hu'.of_get? hget).upper_ne ht
    exact hm'.trans ⟨⟨congrArg List.tail hbody.active, hbody.limits⟩, hbody.dictionary,
      hbody.compilation⟩

/-- The call of a word keeps all definitions. -/
theorem keeps_call (room : Nat) (hm : m.Settled) (h : m.step t = .call name body) :
    m.Keeps (run room [t] m).1 := by
  have hcall := frame_step m t
  rw [h] at hcall
  obtain ⟨hd, ht, -⟩ := hcall
  exact run_keeps room hd hm.dictionary fun t' ht' => List.mem_singleton.1 ht' ▸ ht

/-! ## Moments inside of words -/

/-- What is left of each text is an end of it, and each active word means the text that is run for
it: the innermost word the text of the moment, the others the texts of the callers. -/
inductive Nested (d : Dictionary) : List String → List Token → List Token → List Caller → Prop
  /-- No word is active, and the text is the line. -/
  | line {text rest : List Token} (hrest : rest <:+ text) : Nested d [] text rest []
  /-- The text is the body of the innermost active word. -/
  | word {name : String} {outer : List String} {text rest : List Token} {caller : Caller}
      {callers : List Caller} (hbody : d.get? name = some (.defined text)) (hrest : rest <:+ text)
      (houter : Nested d outer caller.text caller.rest callers) :
      Nested d (name :: outer) text rest (caller :: callers)

/-- What is left of a body is the end of it. -/
theorem Nested.suffix {active : List String} {callers : List Caller}
    (h : Nested d active text rest callers) : rest <:+ text := by
  cases h with
  | line hrest => exact hrest
  | word _ hrest _ => exact hrest

theorem Nested.of_suffix {active : List String} {callers : List Caller} {ts : List Token}
    (h : Nested d active text rest callers) (hts : ts <:+ rest) :
    Nested d active text ts callers := by
  cases h with
  | line hrest => exact .line (hts.trans hrest)
  | word hbody hrest houter => exact .word hbody (hts.trans hrest) houter

/-- The name of the innermost active word means the text. -/
theorem Nested.meaning {callers : List Caller}
    (h : Nested d (name :: outer) text rest callers) : d.get? name = some (.defined text) := by
  cases h with
  | word hbody _ _ => exact hbody

/-- No word is active exactly if there is no caller. -/
theorem Nested.active_eq_nil {active : List String} {callers : List Caller}
    (h : Nested d active text rest callers) : active = [] ↔ callers = [] := by
  cases h with
  | line _ => exact ⟨fun _ => rfl, fun _ => rfl⟩
  | word _ _ _ => exact ⟨fun h => (by cases h), fun h => (by cases h)⟩

namespace Moment

variable {p q r : Moment} {caller : Caller} {callers : List Caller} {k n : Nat}

/-- What holds at all moments: what lines leave behind, inside of a word no definition is open, and
the words mean what is being run. -/
structure Sound (p : Moment) : Prop where
  settled : p.machine.Settled
  closed : p.machine.active ≠ [] → p.machine.compilation.compiling = false
  nested : Nested p.machine.dictionary p.machine.active p.text p.tokens p.callers

/-- The two moments have the same definitions. -/
def Agrees (p q : Moment) : Prop :=
  q.machine.dictionary = p.machine.dictionary ∧ q.machine.compilation = p.machine.compilation

theorem Agrees.trans (h : p.Agrees q) (h' : q.Agrees r) : p.Agrees r :=
  ⟨h'.1.trans h.1, h'.2.trans h.2⟩

/-- A settled machine at the start of a line is sound. -/
theorem sound_start (hm : m.Settled) (ts : List Token) : (start m ts).Sound where
  settled := hm.of_eq rfl rfl
  closed h := absurd rfl h
  nested := .line (List.suffix_refl ts)

/-- Inside of a word, the text that is being run is not marked. -/
theorem Sound.unmarked (hp : p.Sound) (h : p.machine.active ≠ []) : Unmarked p.text := by
  have hnested := hp.nested
  cases hactive : p.machine.active with
  | nil => exact absurd hactive h
  | cons name outer =>
    rw [hactive] at hnested
    exact hp.settled.dictionary.of_get? hnested.meaning

/-- After a token that calls nothing: a line may have changed its definitions, a word has not. -/
theorem Sound.pass (hp : p.Sound) (htokens : p.tokens = t :: rest) (f? : Option Fault)
    (hsettled : m'.Settled) (hframe : p.machine.Framed m')
    (hkeeps : p.machine.active ≠ [] → p.machine.Keeps m') :
    Sound { p with tokens := rest, machine := m', fault? := f? } ∧
      (p.machine.active ≠ [] → p.Agrees { p with tokens := rest, machine := m', fault? := f? }) := by
  have hrest : rest <:+ p.tokens := htokens ▸ List.suffix_cons t rest
  have hnested := hp.nested.of_suffix hrest
  refine ⟨⟨hsettled, fun h => ?_, ?_⟩, fun h => ⟨(hkeeps h).dictionary, (hkeeps h).compilation⟩⟩
  · have hactive : p.machine.active ≠ [] := hframe.active ▸ h
    exact (congrArg Compilation.compiling (hkeeps hactive).compilation).trans (hp.closed hactive)
  · show Nested m'.dictionary m'.active p.text rest p.callers
    rw [hframe.active]
    by_cases hactive : p.machine.active = []
    · rw [hp.nested.active_eq_nil.1 hactive, hactive] at hnested ⊢
      exact .line hnested.suffix
    · rw [(hkeeps hactive).dictionary]
      exact hnested

/-- Entering a word adds it to the active words and its caller to the callers. -/
theorem Sound.enter (hp : p.Sound) (htokens : p.tokens = t :: rest)
    (hd : p.machine.compilation.compiling = false)
    (hbody : p.machine.dictionary.get? name = some (.defined body)) :
    Sound ⟨body, body, ⟨p.text, rest⟩ :: p.callers, p.machine.enterWord name, none⟩ where
  settled := hp.settled.of_eq rfl rfl
  closed _ := hd
  nested := .word hbody (List.suffix_refl body)
    (hp.nested.of_suffix (htokens ▸ List.suffix_cons t rest))

/-- Leaving a word goes back to where its caller was. -/
theorem Sound.leave (hp : p.Sound) (hcallers : p.callers = caller :: callers) (f? : Option Fault) :
    Sound ⟨caller.text, caller.rest, callers, p.machine.leaveWord, f?⟩ := by
  have hactive : p.machine.active ≠ [] := by
    rw [Ne, hp.nested.active_eq_nil, hcallers]
    exact List.cons_ne_nil _ _
  refine ⟨hp.settled.of_eq rfl rfl, fun _ => hp.closed hactive, ?_⟩
  show Nested p.machine.dictionary p.machine.active.tail caller.text caller.rest callers
  have hnested := hp.nested
  rw [hcallers] at hnested
  generalize p.machine.active = active at hnested ⊢
  cases hnested with
  | word _ _ houter => exact houter

/-- What a token leads to. A call keeps all definitions, and so does every token inside of a word. -/
theorem Sound.advance (hp : p.Sound) (htokens : p.tokens = t :: rest) :
    (p.advance t rest).Sound ∧
      (p.machine.active ≠ [] ∨ (∃ name body, p.machine.step t = .call name body) →
        p.Agrees (p.advance t rest)) := by
  have hframe := frame_step p.machine t
  have hsettled := settled_step (t := t) hp.settled
  have hkeeps : p.machine.active ≠ [] →
      (p.machine.step t).Leads p.machine.Keeps fun _ _ => True := by
    intro hactive
    have hmem : t ∈ p.text := hp.nested.suffix.subset (htokens ▸ List.mem_cons_self)
    exact (keeps_step (hp.closed hactive) ((hp.unmarked hactive).upper_ne hmem)).mono
      (fun _ h => h) fun _ _ _ => trivial
  unfold Moment.advance
  cases hs : p.machine.step t with
  | next m' =>
    rw [hs] at hframe hsettled hkeeps
    have hpass := hp.pass htokens p.fault? hsettled hframe hkeeps
    refine ⟨hpass.1, fun h => hpass.2 (h.resolve_right ?_)⟩
    rintro ⟨name, body, hcall⟩
    cases hcall
  | fault f m' =>
    rw [hs] at hframe hsettled hkeeps
    have hpass := hp.pass htokens (some f) hsettled hframe hkeeps
    refine ⟨hpass.1, fun h => hpass.2 (h.resolve_right ?_)⟩
    rintro ⟨name, body, hcall⟩
    cases hcall
  | call name body =>
    rw [hs] at hframe
    obtain ⟨hd, -, hbody⟩ := hframe
    dsimp only
    split
    · exact ⟨hp.enter htokens hd hbody, fun _ => ⟨rfl, rfl⟩⟩
    · have hpass := hp.pass htokens (some (.callDepth p.machine.limits.callDepth)) hp.settled
        ⟨rfl, rfl⟩ fun _ => .refl p.machine
      exact ⟨hpass.1, fun _ => ⟨rfl, rfl⟩⟩

/-- A move keeps moments sound, and inside of a word it also keeps all definitions. -/
theorem Sound.next (hp : p.Sound) (h : p.next? = some q) :
    q.Sound ∧ (p.machine.active ≠ [] → p.Agrees q) := by
  rcases next?_cases h with ⟨t, rest, hfault, htokens, rfl⟩ | ⟨caller, callers, hcallers, rfl⟩
  · have hadvance := hp.advance htokens
    exact ⟨hadvance.1, fun hactive => hadvance.2 (.inl hactive)⟩
  · exact ⟨hp.leave hcallers p.fault?, fun _ => ⟨rfl, rfl⟩⟩

/-- Soundness holds at every later moment. -/
theorem Sound.after (hp : p.Sound) (h : p.after n = some q) : q.Sound :=
  after_preserves (fun _ _ hp h => (hp.next h).1) hp h

/-- From the call of a word to the moment at which the call is over, the definitions are the same. -/
theorem Sound.agrees_of_returns (hp : p.Sound) (htokens : p.tokens = t :: rest)
    (hfault : p.fault? = none) (hcall : p.machine.step t = .call name body)
    (hq : p.ReturnsAfter n rest q) (hk : k ≤ n + 1) (hr : p.after k = some r) : p.Agrees r := by
  induction k generalizing r with
  | zero =>
    cases hr
    exact ⟨rfl, rfl⟩
  | succ k ih =>
    obtain ⟨s, hs, hnext⟩ := after_succ hr
    rcases Nat.eq_zero_or_pos k with rfl | hpos
    · cases hs
      have hadvance : p.next? = some (p.advance t rest) := by
        simp only [next?, hfault, htokens]
      obtain rfl : p.advance t rest = r := Option.some.inj (hadvance.symm.trans hnext)
      exact (hp.advance htokens).2 (.inr ⟨name, body, hcall⟩)
    · -- inside of the call there is a caller, and so a word is active
      have hsound : s.Sound := hp.after hs
      have hinside := hq.inside k s hpos (by omega) hs
      have hactive : s.machine.active ≠ [] := by
        rw [Ne, hsound.nested.active_eq_nil]
        rintro hnil
        rw [hnil, List.suffix_nil] at hinside
        cases hinside
      exact (ih (by omega) hs).trans ((hsound.next hnext).2 hactive)

/-- Inside of a word, its name means the text that is being run. -/
theorem Sound.meaning (hp : p.Sound) (h : p.machine.active = name :: outer) :
    p.machine.dictionary.get? name = some (.defined p.text) := by
  have hnested := hp.nested
  rw [h] at hnested
  exact hnested.meaning

/-- Inside of a word, `RECURSE` calls the word with the text that is being run. -/
theorem Sound.recurse (hp : p.Sound) (h : p.machine.active = name :: outer)
    (ht : Text.upper t = "RECURSE") (hskip : p.machine.control.isSkipping = false) :
    p.machine.step t = .call name p.text := by
  have hd : p.machine.compilation.compiling = false :=
    hp.closed (by rw [h]; exact List.cons_ne_nil _ _)
  rw [step_recurse hd ht h (hp.meaning h), if_neg (by simp [hskip])]

end Moment

/-! ## Reachable machines -/

/-- A machine that lines and resets lead to. -/
inductive Reachable : Machine → Prop where
  | fresh (limits : Limits) : Reachable (fresh limits)
  | execute {m : Machine} (h : Reachable m) (line : String) : Reachable (m.execute line).1
  | reset {m : Machine} (h : Reachable m) : Reachable m.reset

/-- A line leaves a settled machine settled. -/
theorem Settled.halt (hm : m.Settled) (line : String) : (m.halt line).1.Settled := by
  cases hscan : Token.scan line with
  | ok ts =>
    obtain ⟨n, last, hlast, -, hhalt⟩ := exists_last m hscan
    rw [hhalt]
    exact ((Moment.sound_start hm ts).after hlast).settled
  | error f =>
    unfold Machine.halt runLine
    rw [hscan]
    exact hm.of_eq rfl rfl

theorem Settled.execute (hm : m.Settled) (line : String) : (m.execute line).1.Settled := by
  have hclosed : (m.halt line).1.closeLine.Settled := by
    unfold closeLine
    split
    · exact hm.halt line
    · exact (hm.halt line).of_eq rfl rfl
  rw [execute_eq]
  cases (m.halt line).2 with
  | none => exact hclosed
  | some f => exact hclosed.of_eq rfl rfl

/-- Every machine that lines lead to is settled. -/
theorem Reachable.settled (h : Reachable m) : m.Settled := by
  have hnew : ∀ output limits, Settled { output, limits } := fun _ _ =>
    ⟨Dictionary.unmarked_new, Dictionary.covers_new, unmarked_nil, Compilation.wellFormed_closed⟩
  induction h with
  | fresh limits => exact hnew _ limits
  | execute _ line ih => exact ih.execute line
  | reset _ _ => exact hnew _ _

/-- Every moment of a line is sound. -/
theorem Visits.sound {line : String} {p : Moment} (hm : m.Settled) (h : m.Visits line p) :
    p.Sound := by
  obtain ⟨ts, k, -, hp⟩ := h
  exact (Moment.sound_start hm ts).after hp

/-- While a word runs, definitions do not change, and so `RECURSE` is exact. Whatever was executed
before, neither a body nor an open definition holds `:` or `;`; a definition has a name only if it is
open, and tokens only if it has a name; and every primitive name has a meaning.

The moments of a line lead to where the line stops. When a token calls a word, `run` comes back with
the moment at which the call is over, and at all moments until then, with or without a fault, the
dictionary and the open definition are the same. At a moment inside of a word, the name of the word
means the text that is being run, the next moment has the same definitions, and `RECURSE` calls the
word with this text. -/
theorem definitions_constant_in_words {m : Machine} (hm : Reachable m) :
    ((∀ name body, (name, .defined body) ∈ m.dictionary.words → ":" ∉ body ∧ ";" ∉ body) ∧
      ":" ∉ m.compilation.pending ∧ ";" ∉ m.compilation.pending) ∧
    ((m.compilation.compiling = false →
        m.compilation.name = none ∧ m.compilation.pending = []) ∧
      (m.compilation.name = none → m.compilation.pending = [])) ∧
    (∀ p : Primitive, m.dictionary.get? p.name = some (.primitive p) ∨
      ∃ body, m.dictionary.get? p.name = some (.defined body)) ∧
    ∀ line ts, Token.scan line = .ok ts →
      (∃ n last, (Moment.start m ts).after n = some last ∧ last.next? = none ∧
        m.halt line = (last.machine, last.fault?)) ∧
      ∀ k p, (Moment.start m ts).after k = some p →
        (∀ t rest name body, p.fault? = none → p.tokens = t :: rest →
          p.machine.step t = .call name body →
          ∃ n q, p.ReturnsAfter n rest q ∧ run p.room [t] p.machine = (q.machine, q.fault?) ∧
            ∀ j ≤ n + 1, ∀ r, p.after j = some r →
              r.machine.dictionary = p.machine.dictionary ∧
              r.machine.compilation = p.machine.compilation) ∧
        (∀ t name body, p.machine.step t = .call name body → ∀ room,
          (run room [t] p.machine).1.dictionary = p.machine.dictionary ∧
          (run room [t] p.machine).1.compilation = p.machine.compilation) ∧
        ∀ name outer, p.machine.active = name :: outer →
          p.tokens <:+ p.text ∧
          p.machine.dictionary.get? name = some (.defined p.text) ∧
          (∀ q, p.next? = some q → q.machine.dictionary = p.machine.dictionary ∧
            q.machine.compilation = p.machine.compilation) ∧
          ∀ t, Text.upper t = "RECURSE" → p.machine.control.isSkipping = false →
            p.machine.step t = .call name p.text := by
  have hsettled := hm.settled
  refine ⟨⟨hsettled.dictionary, hsettled.pending⟩,
    ⟨hsettled.compilation.closed, hsettled.compilation.unnamed⟩, hsettled.covers,
    fun line ts hscan => ⟨exists_last m hscan, fun k p hp => ⟨?_, ?_, ?_⟩⟩⟩
  all_goals have hsound : p.Sound := (Moment.sound_start hsettled ts).after hp
  · intro t rest name body hfault htokens hcall
    have hbounded := Moment.bounded_of_after (Moment.bounded_start m ts) hp
    obtain ⟨n, q, hq, hrun⟩ := Moment.call_returns hbounded hfault htokens hcall
    exact ⟨n, q, hq, hrun, fun j hj r hr =>
      hsound.agrees_of_returns htokens hfault hcall hq hj hr⟩
  · intro t name body hcall room
    have hkeeps := keeps_call room hsound.settled hcall
    exact ⟨hkeeps.dictionary, hkeeps.compilation⟩
  · intro name outer hactive
    have hinside : p.machine.active ≠ [] := by rw [hactive]; exact List.cons_ne_nil _ _
    exact ⟨hsound.nested.suffix, hsound.meaning hactive, fun q hq => (hsound.next hq).2 hinside,
      fun t ht hskip => hsound.recurse hactive ht hskip⟩

/-- The machine after `: down dup if 1 - recurse then ;`. -/
def countingDown : Machine := ((fresh {}).execute ": down dup if 1 - recurse then ;").1

theorem reachable_countingDown : Reachable countingDown := .execute (.fresh {}) _

theorem countingDown_eq :
    countingDown = { dictionary :=
      ({} : Dictionary).define "DOWN" ["dup", "if", "1", "-", "recurse", "then"] } := by
  decide +kernel

/-- In `2 Down`, the first `recurse` calls the word from inside of itself. The call comes back after
the word has counted down, and all definitions are the same until then. At the moment after the call
the word is active twice, and `RECURSE` would call it with its whole body once more. -/
theorem definitions_constant_in_words_countdown :
    Reachable countingDown ∧ ∃ p q r, (Moment.start countingDown ["2", "Down"]).after 6 = some p ∧
      p.tokens = ["recurse", "then"] ∧ p.machine.stack = [.int 1] ∧
      p.machine.active = ["DOWN"] ∧ (∃ n, p.ReturnsAfter n ["then"] q) ∧
      run 127 ["recurse"] p.machine = (q.machine, q.fault?) ∧
      p.next? = some r ∧ r.machine.active = ["DOWN", "DOWN"] ∧
      r.machine.step "RECURSE" = .call "DOWN" ["dup", "if", "1", "-", "recurse", "then"] := by
  have hscan : Token.scan "2 Down" = .ok ["2", "Down"] := by decide +kernel
  obtain ⟨-, -, -, hlines⟩ := definitions_constant_in_words reachable_countingDown
  obtain ⟨-, hmoments⟩ := hlines "2 Down" ["2", "Down"] hscan
  obtain ⟨p, r, hp, htokens, hfault, hcall, hstack, hactive, hroom, hr, htwice, hskip, htext⟩ :
      ∃ p r, (Moment.start countingDown ["2", "Down"]).after 6 = some p ∧
        p.tokens = ["recurse", "then"] ∧ p.fault? = none ∧
        p.machine.step "recurse" = .call "DOWN" ["dup", "if", "1", "-", "recurse", "then"] ∧
        p.machine.stack = [.int 1] ∧ p.machine.active = ["DOWN"] ∧ p.room = 127 ∧
        p.next? = some r ∧ r.machine.active = ["DOWN", "DOWN"] ∧
        r.machine.control.isSkipping = false ∧
        r.text = ["dup", "if", "1", "-", "recurse", "then"] := by
    rw [countingDown_eq]
    exact ⟨_, _, rfl, rfl, rfl, rfl, rfl, rfl, rfl, rfl, rfl, rfl, rfl⟩
  obtain ⟨hcalls, -, -⟩ := hmoments 6 p hp
  obtain ⟨n, q, hq, hrun, -⟩ := hcalls "recurse" ["then"] "DOWN" _ hfault htokens hcall
  have hafter : (Moment.start countingDown ["2", "Down"]).after 7 = some r := by
    rw [Moment.after_add _ 6 1, hp]
    exact Moment.after_one hr
  obtain ⟨-, -, hinside⟩ := hmoments 7 r hafter
  obtain ⟨-, -, -, hrecurse⟩ := hinside "DOWN" ["DOWN"] htwice
  have hagain := hrecurse "RECURSE" (by decide +kernel) hskip
  rw [htext] at hagain
  rw [hroom] at hrun
  exact ⟨reachable_countingDown, p, q, r, hp, htokens, hstack, hactive, ⟨n, hq⟩, hrun, hr, htwice,
    hagain⟩

end StackLogic.Machine
