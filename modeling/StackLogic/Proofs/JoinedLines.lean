import StackLogic.Proofs.EarlierOutput
import StackLogic.Proofs.LineEnds
import StackLogic.Proofs.TokenLayout

/-!
# Splitting a line changes nothing

Texts that are joined by a line feed have the tokens of both, unless the first ends inside of a
comment (`Token.scan_joined`). Between two lines a machine drops the open control structures and
nothing else, so a line that leaves none open may end anywhere between two tokens
(`joined_lines_run_alike`).
-/

namespace StackLogic.Machine

namespace Token

variable {fresh : Bool} {xs ys : List Char} {pieces others : List Piece} {a b : String}
  {ts us : List Token}

/-- The text is scanned, and all comments in it are closed. -/
def ClosesComments (line : String) : Prop :=
  ∃ pieces, Reads true line.toList pieces ∧ ∀ piece ∈ pieces, piece.isOpenComment = false

/-- Without a parenthesis there is no open comment. -/
theorem Reads.closed_of_not_mem (h : Reads fresh xs pieces) (hparen : '(' ∉ xs) :
    ∀ piece ∈ pieces, piece.isOpenComment = false := by
  induction h with
  | nil => exact fun _ hmem => absurd hmem List.not_mem_nil
  | blank _ _ ih => exact List.forall_mem_cons.2 ⟨rfl, ih (mt (List.mem_cons_of_mem _) hparen)⟩
  | comment | openComment => exact absurd List.mem_cons_self hparen
  | lineComment _ _ _ ih | quoted _ _ ih | word _ _ _ _ _ _ ih =>
    refine List.forall_mem_cons.2 ⟨rfl, ih fun hmem => hparen ?_⟩
    simp [hmem]

/-- A line without parentheses leaves no comment open. -/
theorem closesComments_of_not_mem (h : scan a = .ok ts) (hparen : '(' ∉ a.toList) :
    ClosesComments a := by
  obtain ⟨pieces, hpieces⟩ := exists_reads h
  exact ⟨pieces, hpieces, hpieces.closed_of_not_mem hparen⟩

/-- A text without an open comment is read in the same way when a line feed and another text follow.
-/
theorem Reads.append_lineFeed (h : Reads fresh xs pieces)
    (hclosed : ∀ piece ∈ pieces, piece.isOpenComment = false) (hothers : Reads true ys others) :
    Reads fresh (xs ++ '\n' :: ys) (pieces ++ .blank '\n' :: others) := by
  have hbreak : Text.isBlank '\n' = true := by decide
  -- At the end of the text, the line feed is now what a rule finds behind its piece.
  have hstart : ∀ (P : Char → Prop) (cs : List Char), P '\n' → (∀ x ∈ cs.head?, P x) →
      ∀ x ∈ (cs ++ '\n' :: ys).head?, P x := by
    intro P cs hP hcs
    cases cs with
    | nil =>
      rintro x ⟨⟩
      exact hP
    | cons c rest => exact hcs
  induction h with
  | nil => exact .blank hbreak hothers
  | blank hc _ ih => exact .blank hc (ih (List.forall_mem_cons.1 hclosed).2)
  | comment htext _ ih =>
    rw [List.cons_append, List.append_assoc, List.cons_append]
    exact .comment htext (ih (List.forall_mem_cons.1 hclosed).2)
  | openComment => exact absurd (hclosed _ List.mem_cons_self) nofun
  | lineComment htext hend _ ih =>
    rw [List.cons_append, List.append_assoc]
    exact .lineComment htext (hstart _ _ rfl hend) (ih (List.forall_mem_cons.1 hclosed).2)
  | quoted htext _ ih =>
    rw [List.cons_append, List.append_assoc, List.cons_append]
    exact .quoted htext (ih (List.forall_mem_cons.1 hclosed).2)
  | word hc hquote hcomment htext hend _ ih =>
    rw [List.cons_append, List.append_assoc]
    exact .word hc hquote hcomment htext (hstart _ _ hbreak hend)
      (ih (List.forall_mem_cons.1 hclosed).2)

theorem Reads.scan_eq (h : Reads true a.toList pieces) : scan a = .ok (Piece.tokens pieces) :=
  h.scanFrom_eq 0

/-- A line feed between two lines is a blank between their readings. -/
theorem reads_joined (ha : Reads true a.toList pieces)
    (hclosed : ∀ piece ∈ pieces, piece.isOpenComment = false) (hb : Reads true b.toList others) :
    Reads true (a ++ "\n" ++ b).toList (pieces ++ .blank '\n' :: others) := by
  have hjoined : (a ++ "\n" ++ b).toList = a.toList ++ '\n' :: b.toList := by
    rw [String.toList_append, String.toList_append, List.append_assoc]
    rfl
  rw [hjoined]
  exact ha.append_lineFeed hclosed hb

/-- Joined texts have the tokens of the first and then those of the second. -/
theorem scan_joined (ha : ClosesComments a) (hts : scan a = .ok ts)
    (hus : scan b = .ok us) : scan (a ++ "\n" ++ b) = .ok (ts ++ us) := by
  obtain ⟨pieces, hpieces, hclosed⟩ := ha
  obtain ⟨others, hothers⟩ := exists_reads hus
  rw [hpieces.scan_eq] at hts
  rw [hothers.scan_eq] at hus
  rw [(reads_joined hpieces hclosed hothers).scan_eq, ← Except.ok.inj hts, ← Except.ok.inj hus,
    Piece.tokens, List.filterMap_append]
  rfl

end Token

variable {m : Machine} {a b line : String} {ts us : List Token} {lines : List String}

/-! ## Two lines -/

theorem halt_of_scan (hts : Token.scan line = .ok ts) :
    m.halt line = run m.limits.callDepth ts { m with control := [], active := [] } := by
  rw [halt, runLine, hts]

/-- Tokens are run after others, unless these fault. -/
theorem run_append (room : Nat) (ts us : List Token) (m : Machine) :
    run room (ts ++ us) m = andThen (run room ts m) (run room us) := by
  rw [run_eq_runWith]
  exact runWith_append ts us m

/-- Lines that come to the same halt are executed alike. -/
theorem execute_of_halt_eq {n : Machine} (h : m.halt a = n.halt b) : m.execute a = n.execute b := by
  rw [execute_eq, execute_eq, h]

/-- Two lines that are joined run the tokens of the second after those of the first. -/
theorem halt_joined (ha : Token.ClosesComments a) (hts : Token.scan a = .ok ts)
    (hus : Token.scan b = .ok us) :
    m.halt (a ++ "\n" ++ b) = andThen (m.halt a) (run m.limits.callDepth us) := by
  rw [halt_of_scan (Token.scan_joined ha hts hus), halt_of_scan hts]
  exact run_append _ ts us _

theorem limits_halt (m : Machine) (line : String) : (m.halt line).1.limits = m.limits := by
  unfold halt runLine
  split
  · exact (frame_run _ _ { m with control := [], active := [] }).limits
  · rfl

/-- If the first text leaves no control structure open, executing the joined texts is executing the
second one after the first. -/
theorem execute_joined_of_done (ha : Token.ClosesComments a) (hts : Token.scan a = .ok ts)
    (hus : Token.scan b = .ok us) (hdone : (m.execute a).2 = .done)
    (hcontrol : (m.halt a).1.control = []) :
    m.execute (a ++ "\n" ++ b) = (m.execute a).1.execute b := by
  have hactive := m.active_halt a
  have hlimits := m.limits_halt a
  rw [execute_eq m a] at hdone ⊢
  have hhalt := halt_joined (m := m) ha hts hus
  rcases hrun : m.halt a with ⟨m', _ | f⟩
  · rw [hrun] at hactive hlimits hcontrol hhalt
    have hclose : m'.closeLine = m' := if_pos (List.isEmpty_iff.2 hcontrol)
    have hstart : { m' with control := [], active := [] } = m' := by
      rw [← hcontrol, ← hactive]
    refine execute_of_halt_eq ?_
    dsimp only
    rw [hhalt, hclose, halt_of_scan hus, hstart, hlimits, andThen_none]
  · rw [hrun] at hdone
    cases hdone

/-- If the first text fails, the second one is not looked at. -/
theorem execute_joined_of_failed (ha : Token.ClosesComments a) (hts : Token.scan a = .ok ts)
    (hus : Token.scan b = .ok us) (hfailed : (m.execute a).2 = .failed) :
    m.execute (a ++ "\n" ++ b) = m.execute a := by
  have hhalt := halt_joined (m := m) ha hts hus
  refine execute_of_halt_eq ?_
  rw [execute_eq] at hfailed
  rcases hrun : m.halt a with ⟨m', _ | f⟩
  · rw [hrun] at hfailed
    cases hfailed
  · rw [hrun] at hhalt
    exact hhalt

/-! ## Any number of lines -/

/-- Execute lines one after the other up to the first that fails. -/
def executeLines (m : Machine) : List String → Machine × Outcome
  | [] => (m, .done)
  | line :: rest =>
    match m.execute line with
    | (m', .done) => m'.executeLines rest
    | (m', .failed) => (m', .failed)

/-- The lines can be scanned, all but the last close their comments, and each of these leaves no
control structure open if it is executed and succeeds. -/
def Separable (m : Machine) : List String → Prop
  | [] => False
  | [line] => ∃ ts, Token.scan line = .ok ts
  | line :: next :: rest =>
    Token.ClosesComments line ∧
      ((m.execute line).2 = .done → (m.halt line).1.control = []) ∧
      (m.execute line).1.Separable (next :: rest)

theorem executeLines_cons (m : Machine) (line : String) (rest : List String) :
    m.executeLines (line :: rest) =
      match (m.execute line).2 with
      | .done => (m.execute line).1.executeLines rest
      | .failed => m.execute line := by
  rw [executeLines]
  rcases m.execute line with ⟨m', _ | _⟩
  · rfl
  · rfl

theorem Separable.exists_scan (h : m.Separable lines) :
    ∃ ts, Token.scan ("\n".intercalate lines) = .ok ts := by
  induction lines generalizing m with
  | nil => exact h.elim
  | cons line rest ih =>
    cases rest with
    | nil =>
      rw [String.intercalate_singleton]
      exact h
    | cons next later =>
      obtain ⟨hcomments, -, hlater⟩ := h
      obtain ⟨us, hus⟩ := ih hlater
      obtain ⟨pieces, hpieces, -⟩ := id hcomments
      rw [String.intercalate_cons_cons]
      exact ⟨_, Token.scan_joined hcomments hpieces.scan_eq hus⟩

/-- Separable lines run like the one line that joins them. -/
theorem executeLines_eq_execute_joined (h : m.Separable lines) :
    m.executeLines lines = m.execute ("\n".intercalate lines) := by
  induction lines generalizing m with
  | nil => exact h.elim
  | cons line rest ih =>
    rw [executeLines_cons]
    cases rest with
    | nil =>
      rw [String.intercalate_singleton]
      rcases m.execute line with ⟨m', _ | _⟩
      · rfl
      · rfl
    | cons next later =>
      obtain ⟨hcomments, hcontrol, hlater⟩ := h
      obtain ⟨us, hus⟩ := hlater.exists_scan
      obtain ⟨pieces, hpieces, -⟩ := id hcomments
      rw [String.intercalate_cons_cons]
      cases houtcome : (m.execute line).2 with
      | done =>
        rw [execute_joined_of_done hcomments hpieces.scan_eq hus houtcome (hcontrol houtcome)]
        exact ih hlater
      | failed =>
        rw [execute_joined_of_failed hcomments hpieces.scan_eq hus houtcome]

/-- Splitting a line changes nothing when no control structure is open. Let two texts be scanned,
the first without an open comment. With a line feed between them, they have the tokens of both. If
the first succeeds and leaves no control structure open, executing the joined texts leads to the
same machine with the same outcome as executing one after the other, and the lines that both emit
come one after the other. If the first fails, the joined texts fail in the same way. So lines can be
joined in any number, and a definition may be spread over them. -/
theorem joined_lines_run_alike (m : Machine) :
    (∀ a b ts us, Token.ClosesComments a → Token.scan a = .ok ts → Token.scan b = .ok us →
      Token.scan (a ++ "\n" ++ b) = .ok (ts ++ us) ∧
      ((m.execute a).2 = .done → (m.halt a).1.control = [] →
        m.execute (a ++ "\n" ++ b) = (m.execute a).1.execute b ∧
        (m.execute (a ++ "\n" ++ b)).1.output.lines =
          (m.execute a).1.output.lines ++ ((m.execute a).1.takeOutput.2.execute b).1.output.lines) ∧
      ((m.execute a).2 = .failed → m.execute (a ++ "\n" ++ b) = m.execute a)) ∧
    ∀ lines, m.Separable lines →
      m.executeLines lines = m.execute ("\n".intercalate lines) := by
  refine ⟨fun a b ts us ha hts hus => ⟨Token.scan_joined ha hts hus, fun hdone hcontrol => ?_,
    execute_joined_of_failed ha hts hus⟩, fun lines h => executeLines_eq_execute_joined h⟩
  have hjoined := execute_joined_of_done ha hts hus hdone hcontrol
  refine ⟨hjoined, ?_⟩
  rw [hjoined]
  exact lines_execute_takeOutput _ b

/-- A definition that is spread over two lines, and one over four. -/
theorem joined_lines_run_alike_openDefinition :
    Token.ClosesComments "( n ) : triple" ∧
    (fresh {}).execute "( n ) : triple\n3 * ; 5 triple ." =
      ((fresh {}).execute "( n ) : triple").1.execute "3 * ; 5 triple ." ∧
    (fresh {}).Separable [": triple", "3 *", ";", "5 triple ."] ∧
    ((fresh {}).execute (": triple\n3 *\n;\n5 triple .")).1.output.lines = [⟨.log, "15"⟩] := by
  have hblank : Text.isBlank ' ' = true := by decide
  have hcomments : Token.ClosesComments "( n ) : triple" := by
    refine ⟨[.comment [' ', 'n', ' '], .blank ' ', .word [':'], .blank ' ',
      .word ['t', 'r', 'i', 'p', 'l', 'e']], ?_, by decide⟩
    have hname : Token.Reads true ['t', 'r', 'i', 'p', 'l', 'e'] _ :=
      @Token.Reads.word true 't' ['r', 'i', 'p', 'l', 'e'] [] [] (by decide) (by decide) (by decide)
        (by simp [Text.isBlank, Text.blankRanges]) (by simp) .nil
    have hcolon : Token.Reads true [':', ' ', 't', 'r', 'i', 'p', 'l', 'e'] _ :=
      @Token.Reads.word true ':' [] [' ', 't', 'r', 'i', 'p', 'l', 'e'] _ (by decide) (by decide)
        (by decide) (by simp) (by simp [hblank]) (.blank hblank hname)
    exact @Token.Reads.comment [' ', 'n', ' '] _ _ (by decide) (.blank hblank hcolon)
  have hfirst : Token.scan "( n ) : triple" = .ok [":", "triple"] := by decide +kernel
  have hsecond : Token.scan "3 * ; 5 triple ." = .ok ["3", "*", ";", "5", "triple", "."] := by
    decide +kernel
  have hdone : ((fresh {}).execute "( n ) : triple").2 = .done := by decide +kernel
  have hcontrol : ((fresh {}).halt "( n ) : triple").1.control = [] := by decide +kernel
  obtain ⟨htwo, hmany⟩ := joined_lines_run_alike (fresh {})
  obtain ⟨-, hjoined, -⟩ := htwo _ _ _ _ hcomments hfirst hsecond
  have hlines : (fresh {}).Separable [": triple", "3 *", ";", "5 triple ."] := by
    have hone : Token.scan ": triple" = .ok [":", "triple"] := by decide +kernel
    have htwo : Token.scan "3 *" = .ok ["3", "*"] := by decide +kernel
    have hthree : Token.scan ";" = .ok [";"] := by decide +kernel
    have hfour : Token.scan "5 triple ." = .ok ["5", "triple", "."] := by decide +kernel
    exact ⟨Token.closesComments_of_not_mem hone (by decide), fun _ => by decide +kernel,
      Token.closesComments_of_not_mem htwo (by decide), fun _ => by decide +kernel,
      Token.closesComments_of_not_mem hthree (by decide), fun _ => by decide +kernel, _, hfour⟩
  have hall := hmany _ hlines
  refine ⟨hcomments, (hjoined hdone hcontrol).1, hlines, ?_⟩
  have htext : "\n".intercalate [": triple", "3 *", ";", "5 triple ."] =
      ": triple\n3 *\n;\n5 triple ." := by decide +kernel
  rw [← htext, ← hall]
  decide +kernel

end StackLogic.Machine
