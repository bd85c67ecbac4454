import StackLogic.Proofs.CallDepth

/-!
# Every line ends

`run` is a recursion on the room for active words, so it ends by definition. The moves of a line know
nothing of that room (`Moment.next?`), and they come to an end, too: where `run` stops there is no
next moment. The list of callers grows and shrinks with the active words, so a call comes back to the
moment after it, with or without a fault, and the same words are active then.
-/

namespace StackLogic.Machine

theorem control_closeLine (m : Machine) : m.closeLine.control = [] := by
  unfold closeLine
  split
  next h => exact List.isEmpty_iff.1 h
  next => rfl

/-- At the end of a line no word is active. -/
theorem active_halt (m : Machine) (line : String) : (m.halt line).1.active = [] := by
  unfold halt runLine
  split
  · exact (frame_run _ _ { m with control := [], active := [] }).active
  · rfl

theorem active_closeLine (m : Machine) : m.closeLine.active = m.active := by
  unfold closeLine
  split <;> rfl

/-- A line leaves neither an open marker nor an active word. -/
theorem execute_clean (m : Machine) (line : String) :
    (m.execute line).1.control = [] ∧ (m.execute line).1.active = [] := by
  rw [execute_eq]
  cases (m.halt line).2 with
  | none => exact ⟨control_closeLine _, (active_closeLine _).trans (m.active_halt line)⟩
  | some f => exact ⟨control_closeLine _, rfl⟩

/-- Whatever words are defined and whatever the limits are, the execution of a line comes to an end:
after some moves there is no next one, and the machine and the fault at that moment are what the
line ends with. At no moment are more words active than the limit allows. Every call of a word comes
back, with or without a fault, and the same words are active then as before it. After the line, no
control structure is open and no word is active, as in a new machine. -/
theorem every_line_ends (m : Machine) (line : String) :
    (∀ ts, Token.scan line = .ok ts →
      (∃ n last, (Moment.start m ts).after n = some last ∧ last.next? = none ∧
        m.halt line = (last.machine, last.fault?)) ∧
      ∀ k p, (Moment.start m ts).after k = some p →
        p.machine.active.length ≤ m.limits.callDepth ∧
        ∀ t rest name body, p.fault? = none → p.tokens = t :: rest →
          p.machine.step t = .call name body → ∃ q, p.Returns rest q) ∧
    (m.execute line).1.control = (fresh m.limits).control ∧
    (m.execute line).1.active = (fresh m.limits).active := by
  refine ⟨fun ts hscan => ⟨exists_last m hscan, fun k p hp => ?_⟩, m.execute_clean line⟩
  have hbounded := Moment.bounded_of_after (Moment.bounded_start m ts) hp
  refine ⟨hbounded.active, fun t rest name body hfault htokens hstep => ?_⟩
  obtain ⟨n, q, hq, -⟩ := Moment.call_returns hbounded hfault htokens hstep
  exact ⟨q, n, hq⟩

/-- Two words that call each other fill the room for two active words. The third call is refused,
the fault passes both words, and the line ends after nine moves. -/
theorem every_line_ends_pingPong :
    Token.scan "a" = .ok ["a"] ∧
    (∃ p q, (Moment.start (pingPong 2) ["a"]).after 3 = some p ∧ p.tokens = ["b"] ∧
      p.machine.active = ["A"] ∧ p.Returns [] q ∧
      ((Moment.start (pingPong 2) ["a"]).after 4).map (·.machine.active) = some ["B", "A"]) ∧
    ((Moment.start (pingPong 2) ["a"]).after 9).map (·.fault?) = some (some (.callDepth 2)) ∧
    ((pingPong 2).execute "a").1.active = [] := by
  have hscan : Token.scan "a" = .ok ["a"] := by decide +kernel
  have hlast : ((Moment.start (pingPong 2) ["a"]).after 9).map (·.fault?) =
      some (some (.callDepth 2)) := by decide +kernel
  obtain ⟨hline, -, hactive⟩ := every_line_ends (pingPong 2) "a"
  obtain ⟨-, hmoments⟩ := hline ["a"] hscan
  obtain ⟨p, hp, htokens, hfault, hcall, hwords⟩ : ∃ p,
      (Moment.start (pingPong 2) ["a"]).after 3 = some p ∧ p.tokens = ["b"] ∧ p.fault? = none ∧
      p.machine.step "b" = .call "B" ["2", ".", "a"] ∧ p.machine.active = ["A"] :=
    ⟨_, rfl, rfl, rfl, rfl, rfl⟩
  obtain ⟨q, hq⟩ := (hmoments 3 p hp).2 "b" [] "B" ["2", ".", "a"] hfault htokens hcall
  exact ⟨hscan, ⟨p, q, hp, htokens, hwords, hq, by decide +kernel⟩, hlast, hactive⟩

end StackLogic.Machine
