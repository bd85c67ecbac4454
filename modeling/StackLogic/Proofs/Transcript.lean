import StackLogic.Proofs.EarlierOutput
import StackLogic.Proofs.Editing

/-!
# The transcript is a faithful record

The requests of the console are the lines that are submitted and the resets. `Session.record` carries
them out on a session whose output is never taken, and tells for each submitted line what it adds to
the output. The transcript is this record, whatever keys are pressed in between
(`transcript_is_record`).

The session of the console takes its output after each line. It is the session of the record less the
output of both interpreters, and this is the invariant of every key press: what was emitted before
does not matter to an interpreter.
-/

namespace StackLogic

open Console

/-- What the console asks of its session. -/
inductive Request where
  | submit (language : Language) (line : String)
  | reset (language : Language)

namespace Session

variable {s : Session}

/-- What one interpreter has emitted. -/
def output (s : Session) : Language → Output
  | .forth => s.machine.output
  | .prolog => s.reasoner.output

/-- Carry out a request and leave the output where it is. Blank lines are not executed. -/
def perform (s : Session) : Request → Session
  | .submit language line =>
    if Text.isBlankString line then s else (s.execute language line).1
  | .reset language => s.reset language

/-- What executing a line adds to the output. -/
def emitted (s : Session) (language : Language) (line : String) : List OutputLine :=
  ((s.execute language line).1.output language).lines.drop (s.output language).lines.length

/-- What the record tells about a line that was emitted: diagnostics are told apart, and so is what
the user reads about a line that has failed. -/
def entryOf (language : Language) (outcome : Outcome) (line : OutputLine) : Entry where
  kind := if line.channel = .debug then .debug else if outcome = .failed then .error else .output
  language := language
  text := line.text

/-- What the record tells about a request. -/
def entries (s : Session) : Request → List Entry
  | .submit language line =>
    ⟨.input, language, language.prompt ++ line⟩ ::
      if Text.isBlankString line then []
      else (s.emitted language line).map (entryOf language (s.execute language line).2)
  | .reset _ => []

/-- The record of requests that are carried out one after the other. -/
def record (s : Session) : List Request → List Entry
  | [] => []
  | request :: rest => s.entries request ++ (s.perform request).record rest

/-- The record of requests one after the other is put together from their records. -/
theorem record_append (s : Session) (first later : List Request) :
    s.record (first ++ later) = s.record first ++ (first.foldl perform s).record later := by
  induction first generalizing s with
  | nil => rfl
  | cons request rest ih =>
    rw [List.cons_append, record, record, ih, List.append_assoc]
    rfl

/-- The session without the output of both interpreters. -/
def drained (s : Session) : Session :=
  { machine := s.machine.takeOutput.2, reasoner := s.reasoner.takeOutput.2 }

/-- Nothing is left in a drained session. -/
theorem output_drained (s : Session) (language : Language) : s.drained.output language = .empty := by
  cases language with
  | forth => rfl
  | prolog => rfl

/-- Draining and resetting may be done in any order. -/
theorem reset_drained (s : Session) (language : Language) :
    s.drained.reset language = (s.reset language).drained := by
  cases language with
  | forth => rfl
  | prolog => rfl

/-- Executing a line without earlier output and taking the output gives what the line adds to the
output, and a session without output again. -/
theorem takeOutput_execute_drained (s : Session) (language : Language) (line : String) :
    (s.drained.execute language line).1.takeOutput language =
        (s.emitted language line, (s.execute language line).1.drained) ∧
      (s.drained.execute language line).2 = (s.execute language line).2 := by
  cases language with
  | forth =>
    obtain ⟨htaken, houtcome⟩ := s.machine.takeOutput_execute line
    simp only [execute, takeOutput, emitted, output, drained, htaken, houtcome, and_self]
  | prolog =>
    obtain ⟨htaken, houtcome⟩ := s.reasoner.takeOutput_execute line
    simp only [execute, takeOutput, emitted, output, drained, htaken, houtcome, and_self]

theorem entryOf_eq (language : Language) (outcome : Outcome) :
    entryOf language outcome = Entry.ofOutput language outcome := by
  funext ⟨channel, text⟩
  cases channel with
  | debug => rfl
  | log =>
    cases outcome with
    | done => rfl
    | failed => rfl

end Session

namespace Console

variable {c : Console} {s : Session} {p : Press}

/-- The key press that clears the transcript. -/
def Press.clear : Press := ⟨.char 'l', true⟩

/-- The request that a key press makes. -/
def request? (c : Console) (p : Press) : Option Request :=
  if p.key = .enter then some (.submit c.language (String.ofList c.editor.text))
  else if p = ⟨.char 'r', true⟩ then some (.reset c.language)
  else none

/-- The requests that key presses make, in order. -/
def requests (c : Console) : List Press → List Request
  | [] => []
  | p :: rest => (c.request? p).toList ++ (c.press p).requests rest

/-- What a key press can do to the session and the transcript. -/
inductive Reaction (c : Console) (p : Press) : Prop where
  | submits (hp : p.key = .enter) (hpress : c.press p = c.submit)
  | resets (hp : p = ⟨.char 'r', true⟩)
      (hsession : (c.press p).session = c.session.reset c.language)
      (htranscript : (c.press p).transcript = c.transcript)
  | clears (hp : p = .clear) (hsession : (c.press p).session = c.session)
  | keeps (hrequest : c.request? p = none) (hsession : (c.press p).session = c.session)
      (htranscript : (c.press p).transcript = c.transcript)

theorem reaction_char (c : Console) (ch : Char) (control : Bool) :
    c.Reaction ⟨.char ch, control⟩ := by
  by_cases hreset : Press.mk (.char ch) control = ⟨.char 'r', true⟩
  · rw [hreset]
    exact .resets rfl rfl rfl
  by_cases hclear : Press.mk (.char ch) control = .clear
  · rw [hclear]
    exact .clears rfl rfl
  have hrequest : c.request? ⟨.char ch, control⟩ = none := by
    rw [request?, if_neg nofun, if_neg hreset]
  have htype : (c.type control ch).session = c.session ∧
      (c.type control ch).transcript = c.transcript := by
    unfold type
    split
    · exact ⟨rfl, rfl⟩
    · exact absurd rfl hclear
    · exact absurd rfl hreset
    · exact ⟨rfl, rfl⟩
  exact .keeps hrequest htype.1 htype.2

/-- Every key has one of the reactions. -/
theorem reaction_press (c : Console) (p : Press) : c.Reaction p := by
  obtain ⟨key, control⟩ := p
  have hscroll : ∀ f, (c.scroll f).session = c.session ∧ (c.scroll f).transcript = c.transcript := by
    intro f
    unfold scroll
    split
    · exact ⟨rfl, rfl⟩
    · exact ⟨rfl, rfl⟩
  cases key with
  | enter => exact .submits rfl rfl
  | char ch => exact c.reaction_char ch control
  | pageUp | pageDown => exact .keeps rfl (hscroll _).1 (hscroll _).2
  | function n =>
    by_cases hn : n = 1
    · rw [hn]
      exact .keeps rfl rfl rfl
    · have hpress := c.press_function hn control
      exact .keeps rfl (congrArg session hpress) (congrArg transcript hpress)
  | _ => exact .keeps rfl rfl rfl

/-- Enter submits the line and adds what it emits to the transcript. -/
theorem submit_follows (h : c.session = s.drained) :
    c.submit.session =
        (s.perform (.submit c.language (String.ofList c.editor.text))).drained ∧
      c.submit.transcript =
        c.transcript ++ s.entries (.submit c.language (String.ofList c.editor.text)) := by
  unfold submit Session.perform Session.entries
  dsimp only
  split
  · exact ⟨h, rfl⟩
  · unfold run
    dsimp only
    obtain ⟨htaken, houtcome⟩ :=
      s.takeOutput_execute_drained c.language (String.ofList c.editor.text)
    rw [h, htaken, houtcome, Session.entryOf_eq, List.append_assoc]
    exact ⟨rfl, rfl⟩

/-- The session of the console and that of the record stay the same but for the output, and the
transcript grows as the record does. -/
theorem press_follows (h : c.session = s.drained) (p : Press) :
    (c.press p).session = ((c.request? p).toList.foldl Session.perform s).drained ∧
      (p ≠ .clear →
        (c.press p).transcript = c.transcript ++ s.record (c.request? p).toList) := by
  cases c.reaction_press p with
  | submits hp hpress =>
    obtain ⟨hsession, htranscript⟩ := submit_follows h
    have hrequest : c.request? p =
        some (.submit c.language (String.ofList c.editor.text)) := if_pos hp
    rw [hpress, hrequest]
    refine ⟨hsession, fun _ => ?_⟩
    rw [htranscript, Option.toList_some, Session.record, Session.record, List.append_nil]
  | resets hp hsession htranscript =>
    have hrequest : c.request? p = some (.reset c.language) := by
      rw [hp]
      rfl
    rw [hsession, htranscript, hrequest, h]
    exact ⟨s.reset_drained c.language, fun _ => (List.append_nil _).symm⟩
  | clears hp hsession =>
    have hrequest : c.request? p = none := by
      rw [hp]
      rfl
    rw [hsession, hrequest]
    exact ⟨h, fun hne => absurd hp hne⟩
  | keeps hrequest hsession htranscript =>
    rw [hsession, htranscript, hrequest]
    exact ⟨h, fun _ => (List.append_nil _).symm⟩

/-- Any keys do to the session and to the transcript what their requests do. -/
theorem foldl_press_follows (h : c.session = s.drained) (presses : List Press) :
    (presses.foldl press c).session =
        ((c.requests presses).foldl Session.perform s).drained ∧
      (.clear ∉ presses →
        (presses.foldl press c).transcript = c.transcript ++ s.record (c.requests presses)) := by
  induction presses generalizing c s with
  | nil => exact ⟨h, fun _ => (List.append_nil _).symm⟩
  | cons p rest ih =>
    obtain ⟨hsession, htranscript⟩ := press_follows h p
    obtain ⟨hlast, hrecord⟩ := ih hsession
    rw [requests, List.foldl_append]
    refine ⟨hlast, fun hclear => ?_⟩
    have hp : p ≠ .clear := fun hp => hclear (hp ▸ List.mem_cons_self)
    have hrest : .clear ∉ rest := fun hmem => hclear (List.mem_cons_of_mem p hmem)
    rw [List.foldl_cons, hrecord hrest, htranscript hp, List.append_assoc, s.record_append]

/-- Unless it is cleared, the transcript is the record of the submitted lines and the resets on a fresh
session with the same limits. After every key press, no output is left in the session. -/
theorem transcript_is_record (limits : Limits) (language : Language) (presses : List Press) :
    (.clear ∉ presses →
      (presses.foldl press (fresh (.fresh limits) language)).transcript =
        (Session.fresh limits).record ((fresh (.fresh limits) language).requests presses)) ∧
    ∀ l, (presses.foldl press (fresh (.fresh limits) language)).session.output l = .empty := by
  have hstart : (fresh (.fresh limits) language).session = (Session.fresh limits).drained := rfl
  obtain ⟨hsession, htranscript⟩ := foldl_press_follows hstart presses
  refine ⟨fun hclear => ?_, fun l => ?_⟩
  · rw [htranscript hclear]
    rfl
  · rw [hsession]
    exact Session.output_drained _ l

/-- The keys that submit `1 .` to the stack machine, `trace` to the reasoner, and `+` to the stack
machine; then the stack machine is reset, and a blank line is submitted. -/
def bothLanguages : List Press :=
  [⟨.char '1', false⟩, ⟨.char ' ', false⟩, ⟨.char '.', false⟩, ⟨.enter, false⟩, ⟨.tab, false⟩,
    ⟨.char 't', false⟩, ⟨.char 'r', false⟩, ⟨.char 'a', false⟩, ⟨.char 'c', false⟩,
    ⟨.char 'e', false⟩, ⟨.enter, false⟩, ⟨.tab, false⟩, ⟨.char '+', false⟩, ⟨.enter, false⟩,
    ⟨.char 'r', true⟩, ⟨.enter, false⟩]

theorem transcript_is_record_bothLanguages :
    .clear ∉ bothLanguages ∧
    (bothLanguages.foldl press (fresh (.fresh {}) .forth)).transcript =
      [⟨.input, .forth, "forth> 1 ."⟩, ⟨.output, .forth, "1"⟩,
        ⟨.input, .prolog, "prolog> trace"⟩, ⟨.output, .prolog, "% trace on"⟩,
        ⟨.input, .forth, "forth> +"⟩, ⟨.error, .forth, "Stack underflow in +"⟩,
        ⟨.input, .forth, "forth> "⟩] := by
  have hclear : .clear ∉ bothLanguages := by decide
  refine ⟨hclear, ?_⟩
  rw [(transcript_is_record {} .forth bothLanguages).1 hclear]
  decide +kernel

end Console

end StackLogic
