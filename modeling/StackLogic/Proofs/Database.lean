import StackLogic.Proofs.LargerLimits
import StackLogic.Proofs.QueryBounds
import Mathlib.Data.List.Basic

/-!
# The clauses of a reasoner

A line that defines a clause adds it at the end of its predicate, a new predicate is added at the
end of all, and `RESET` forgets all clauses; no other line changes them. `Reasoner.Effect` says this
once, together with how the clause was read (`Defines`). From it follows, line by line, that the
clauses of a reasoner stay well formed: no predicate is listed twice or without a clause, and every
goal of a stored body can be read. A search therefore never meets a body that cannot be read
(`Runs.ne_malformed`).
-/

namespace StackLogic.Horn

variable {name other : String} {c : Clause} {d : Database}

/-! ## Adding a clause -/

namespace Database

theorem add_of_lookup_eq_some {clauses : List Clause} (h : d.predicates.lookup name = some clauses)
    (c : Clause) :
    d.add name c = { d with predicates := d.predicates.insert name (clauses ++ [c]) } := by
  rw [add, h]

theorem add_of_lookup_eq_none (h : d.predicates.lookup name = none) (c : Clause) :
    d.add name c =
      { predicates := d.predicates.insert name [c], names := d.names ++ [name] } := by
  rw [add, h]

/-- A clause is added behind the clauses of its predicate, and the others keep theirs. -/
theorem clauses_add (d : Database) (name : String) (c : Clause) (other : String) :
    (d.add name c).clauses other =
      if other = name then d.clauses other ++ [c] else d.clauses other := by
  unfold clauses
  cases h : d.predicates.lookup name with
  | some clauses =>
    rw [add_of_lookup_eq_some h, Table.lookup_insert]
    split
    next heq => rw [heq, h]; rfl
    next => rfl
  | none =>
    rw [add_of_lookup_eq_none h, Table.lookup_insert]
    split
    next heq => rw [heq, h]; rfl
    next => rfl

/-- Adding a clause defines its predicate. -/
theorem contains_add (d : Database) (name : String) (c : Clause) (other : String) :
    (d.add name c).contains other = true ↔ other = name ∨ d.contains other = true := by
  have hinsert : ∀ clauses : List Clause,
      ((d.predicates.insert name clauses).lookup other).isSome = true ↔
        other = name ∨ d.contains other = true := by
    intro clauses
    rw [Table.lookup_insert]
    split
    next heq => exact iff_of_true rfl (.inl heq)
    next hne => exact ⟨.inr, fun h => h.resolve_left hne⟩
  cases h : d.predicates.lookup name with
  | some clauses => rw [add_of_lookup_eq_some h]; exact hinsert _
  | none => rw [add_of_lookup_eq_none h]; exact hinsert _

/-- A new predicate is listed behind the others, an old one stays where it is. -/
theorem names_add (d : Database) (name : String) (c : Clause) :
    (d.add name c).names = if d.contains name then d.names else d.names ++ [name] := by
  unfold contains
  cases h : d.predicates.lookup name with
  | some clauses => rw [add_of_lookup_eq_some h]; rfl
  | none => rw [add_of_lookup_eq_none h]; rfl

/-- The second database is the first one with a clause added at the end of its predicate. -/
inductive Appends (d : Database) (name : String) (c : Clause) (d' : Database) : Prop where
  /-- The predicate has clauses already. -/
  | old (before after : List (String × List Clause)) (clauses : List Clause)
      (hbefore : d.predicates = before ++ (name, clauses) :: after)
      (hafter : d'.predicates = before ++ (name, clauses ++ [c]) :: after)
      (hnames : d'.names = d.names)
  /-- The predicate is new and comes last. -/
  | new (hbefore : name ∉ d.names) (hafter : d'.predicates = d.predicates ++ [(name, [c])])
      (hnames : d'.names = d.names ++ [name])

end Database

/-! ## Well-formed clauses -/

/-- A text that a body may hold: it is not empty and reads as a goal. -/
def IsGoalText (text : String) : Prop := text ≠ "" ∧ ∃ g, Goal.ofString text = .ok g

/-- A fact, or a rule with at least one goal and none that cannot be read. -/
def Clause.WellFormed : Clause → Prop
  | .fact _ => True
  | .rule _ body => body ≠ [] ∧ ∀ part ∈ body, IsGoalText part.text

theorem Clause.WellFormed.isGoalText (h : c.WellFormed) :
    ∀ part ∈ c.body, IsGoalText part.text := by
  cases c with
  | fact args => exact List.forall_mem_nil _
  | rule args body => exact h.2

/-- Each predicate is listed once and has clauses, and each clause is well formed. -/
structure Database.WellFormed (d : Database) : Prop where
  nodup : d.names.Nodup
  /-- The predicates are kept in the order in which they are listed. -/
  keys : d.predicates.map (·.1) = d.names
  /-- The predicates that are listed are those that have been defined. -/
  mem_names_iff : ∀ name, name ∈ d.names ↔ d.contains name = true
  clauses_ne_nil : ∀ name, d.contains name = true → d.clauses name ≠ []
  clause : ∀ name, ∀ c ∈ d.clauses name, c.WellFormed

namespace Database

theorem wellFormed_empty : empty.WellFormed where
  nodup := List.nodup_nil
  keys := rfl
  mem_names_iff _ := iff_of_false List.not_mem_nil nofun
  clauses_ne_nil _ h := by cases h
  clause _ := List.forall_mem_nil _

/-- A predicate without clauses is not listed. -/
theorem WellFormed.lookup_eq_none_iff (h : d.WellFormed) :
    d.predicates.lookup name = none ↔ name ∉ d.names :=
  h.keys ▸ Table.lookup_eq_none_iff

/-- In a well-formed database, a clause is added at the end of its predicate, and a new predicate at
the end of all. -/
theorem WellFormed.appends_add (h : d.WellFormed) (name : String) (c : Clause) :
    d.Appends name c (d.add name c) := by
  cases hlookup : d.predicates.lookup name with
  | some clauses =>
    obtain ⟨before, after, hsplit, hbefore⟩ := Table.exists_append_of_lookup hlookup
    have hadd := add_of_lookup_eq_some hlookup c
    refine .old before after clauses hsplit ?_ (by rw [hadd])
    rw [hadd, hsplit, Table.insert_append hbefore, Table.insert, if_pos rfl]
  | none =>
    have hadd := add_of_lookup_eq_none hlookup c
    refine .new (h.lookup_eq_none_iff.1 hlookup) ?_ (by rw [hadd])
    have hinsert := Table.insert_append (Table.lookup_eq_none_iff.1 hlookup) [c] []
    rw [List.append_nil] at hinsert
    rw [hadd, hinsert, Table.insert]

/-- If the map and the list name the same predicates in the same order, they do so after a clause is
added. -/
theorem Appends.keys {d' : Database} (h : d.Appends name c d')
    (hkeys : d.predicates.map (·.1) = d.names) : d'.predicates.map (·.1) = d'.names := by
  cases h with
  | old before after clauses hbefore hafter hnames =>
    rw [hafter, hnames, ← hkeys, hbefore]
    simp only [List.map_append, List.map_cons]
  | new _ hafter hnames =>
    rw [hafter, hnames, ← hkeys]
    simp only [List.map_append, List.map_cons, List.map_nil]

/-- A well-formed clause keeps a database well formed. -/
theorem WellFormed.add (h : d.WellFormed) (name : String) (hc : c.WellFormed) :
    (d.add name c).WellFormed := by
  refine ⟨?_, (h.appends_add name c).keys h.keys, fun other => ?_, fun other hother => ?_,
    fun other c' hc' => ?_⟩
  · rw [names_add]
    split
    · exact h.nodup
    next hnew =>
      rw [← h.mem_names_iff] at hnew
      exact List.Nodup.append h.nodup (List.nodup_singleton _) (List.disjoint_singleton.2 hnew)
  · rw [contains_add, ← h.mem_names_iff, names_add]
    split
    next hold =>
      rw [← h.mem_names_iff] at hold
      exact ⟨.inr, fun hother => hother.elim (fun heq => heq ▸ hold) id⟩
    next => rw [List.mem_append, List.mem_singleton, or_comm]
  · rw [clauses_add]
    split
    · simp
    next hne =>
      have hold := ((d.contains_add name c other).1 hother).resolve_left hne
      exact h.clauses_ne_nil other hold
  · rw [clauses_add] at hc'
    split at hc'
    · rw [List.mem_append, List.mem_singleton] at hc'
      rcases hc' with hold | rfl
      · exact h.clause other c' hold
      · exact hc
    · exact h.clause other c' hc'

end Database

/-! ## Searches in well-formed clauses -/

/-- A body of goal texts can be read, whatever the activation. -/
theorem exists_instantiate (k : Nat) {body : List BodyGoal}
    (h : ∀ part ∈ body, IsGoalText part.text) : ∃ goals, instantiate k body = .ok goals := by
  induction body with
  | nil => exact ⟨[], rfl⟩
  | cons part rest ih =>
    obtain ⟨hpart, hrest⟩ := List.forall_mem_cons.1 h
    obtain ⟨-, g, hg⟩ := hpart
    obtain ⟨goals, hgoals⟩ := ih hrest
    rw [instantiate_cons, part.goal_eq, hg, hgoals]
    exact ⟨_, rfl⟩

/-- The clauses that are still to be tried are well formed. -/
def Task.WellFormed : {α : Type} → Task α → Prop
  | _, .clauses _ _ left => ∀ c ∈ left, c.WellFormed
  | _, _ => True

/-- A search in a well-formed database never meets a body that cannot be read. -/
theorem Runs.ne_malformed {w : Setting} {α : Type} {depth : Nat} {task : Task α} {s t : Tally}
    {events : List Event} {result : Except Failure α} (hw : w.database.WellFormed)
    (h : Runs w depth task s events result t) (htask : task.WellFormed) (cause : MalformedCause)
    (text : String) : result ≠ .error (.malformed cause text) := by
  induction h with
  | done | noClause | called | bodyCut => exact nofun
  | outOfSteps | tooDeep => exact nofun
  | leave _ ih | found _ ih | cut _ ih => exact ih trivial
  | failed _ _ ih =>
    intro hf
    cases hf
    exact ih trivial rfl
  | proved _ _ _ _ ihrest => exact ihrest trivial
  | builtin _ hg h =>
    obtain ⟨found, output, hproved⟩ := onlyEmits_proveWith hg _ _
    cases hproved.symm.trans (h fun _ _ _ => pure [])
    exact nofun
  | callFailed _ _ _ ih =>
    intro hf
    cases hf
    exact ih (hw.clause _) rfl
  | mismatch _ _ ih => exact ih (List.forall_mem_cons.1 htask).2
  | unreadable _ hbody =>
    -- the only rule that makes up such a failure
    obtain ⟨goals, hgoals⟩ := exists_instantiate _ (List.forall_mem_cons.1 htask).1.isGoalText
    cases hbody.symm.trans hgoals
  | bodyFailed _ _ _ ih =>
    intro hf
    cases hf
    exact ih trivial rfl
  | @bodyProved _ _ _ _ _ _ _ _ _ _ _ _ _ result _ _ _ _ _ _ ihrest =>
    have hrest := ihrest (List.forall_mem_cons.1 htask).2
    cases result with
    | ok solutions => exact nofun
    | error f =>
      intro hf
      cases hf
      exact hrest rfl

theorem Reasoner.search_ne_malformed {r : Reasoner} (h : r.database.WellFormed) (goals : List Goal)
    (cause : MalformedCause) (text : String) :
    (r.search goals).1 ≠ .error (.malformed cause text) := by
  obtain ⟨events, result, t, hrun⟩ := r.exists_runs goals
  rw [hrun.search_eq]
  exact Horn.Runs.ne_malformed h hrun trivial cause text

/-! ## What a line does to the clauses -/

/-- A body is read if each of its texts is the text of a goal. -/
theorem readBody_eq_ok_iff {line : String} {texts : List String} {body : List BodyGoal} :
    readBody line texts = .ok body ↔
      body = texts.map BodyGoal.ofText ∧ ∀ text ∈ texts, IsGoalText text := by
  induction texts generalizing body with
  | nil => simp [readBody, eq_comm]
  | cons text rest ih =>
    rw [readBody, List.forall_mem_cons]
    by_cases hempty : text = ""
    · simp [hempty, IsGoalText]
    · have hfull : text.isEmpty = false := by simpa using hempty
      rw [hfull, readGoal]
      cases hgoal : Goal.ofString text with
      | error e => simp [IsGoalText, hgoal]
      | ok g =>
        have htext : IsGoalText text := ⟨hempty, g, hgoal⟩
        cases hrest : readBody line rest with
        | error f =>
          constructor
          · intro h
            cases h
          · rintro ⟨-, -, hgoals⟩
            cases hrest.symm.trans (ih.2 ⟨rfl, hgoals⟩)
        | ok goals =>
          obtain ⟨rfl, hgoals⟩ := ih.1 hrest
          simp only [Except.map, Bool.false_eq_true, if_false, Except.ok.injEq, List.map_cons]
          constructor
          · rintro rfl
            exact ⟨rfl, htext, hgoals⟩
          · rintro ⟨rfl, -⟩
            rfl

namespace Source

/-- The part of a line that is used: without its comment and without blanks around it. -/
def core (line : String) : List Char := Text.trim (stripComment line.toList)

/-- The word of a command in upper case. -/
def commandWord (line : String) : String :=
  String.ofList ((stripTerminator (core line)).map Char.toUpper)

/-- The command that forgets all clauses. -/
def IsReset (line : String) : Prop :=
  classify (stripComment line.toList) = .command ∧ commandWord line = "RESET"

/-- The names of the commands. -/
def commandNames : List String := ["LISTING", "TRACE", "NOTRACE", "RESET"]

/-- A line that is read as a fact: it has parentheses, or it is a word that starts with a small
letter and names no command. -/
def IsFactLine (line : String) : Prop :=
  classify (core line) = .fact ∨
    classify (core line) = .command ∧ commandWord line ∉ commandNames ∧
      (stripTerminator (core line)).head?.any Char.isLower = true

/-- The kind of a line is told by the part that is used. -/
theorem classify_core (line : String) :
    classify (core line) = classify (stripComment line.toList) := by
  unfold classify core
  rw [trim_trim]

theorem classify_core_eq_rule_iff {line : String} :
    classify (core line) = .rule ↔ (splitAt? arrow none (core line)).isSome = true := by
  unfold classify core
  rw [trim_trim]
  dsimp only
  split
  next h => exact iff_of_true rfl h
  next h =>
    refine iff_of_false ?_ h
    split
    · exact nofun
    · split <;> exact nofun

end Source

/-- How a line defines a clause of a predicate. -/
inductive Defines (line : String) : String → Clause → Prop where
  | fact {name : String} {args : List Term}
      (hline : Source.IsFactLine line)
      (hhead : Grammar.clauseHead (String.ofList (Source.core line)) = .ok (name, args)) :
      Defines line name (.fact args)
  | rule {name : String} {args : List Term} {head arrowAndBody : List Char}
      (harrow : Source.splitAt? Source.arrow none (Source.core line) = some (head, arrowAndBody))
      (hhead : Grammar.clauseHead (String.ofList head) = .ok (name, args))
      (hbody : goalTexts (arrowAndBody.drop 2) ≠ [])
      (hgoals : ∀ text ∈ goalTexts (arrowAndBody.drop 2), IsGoalText text) :
      Defines line name (.rule args ((goalTexts (arrowAndBody.drop 2)).map BodyGoal.ofText))

/-- What a line defines is well formed. -/
theorem Defines.wellFormed {line : String} (h : Defines line name c) : c.WellFormed := by
  cases h with
  | fact hline hhead => trivial
  | rule harrow hhead hbody hgoals =>
    refine ⟨mt List.map_eq_nil_iff.1 hbody, fun part hpart => ?_⟩
    obtain ⟨text, htext, rfl⟩ := List.mem_map.1 hpart
    exact hgoals text htext

theorem readFact_eq_ok_iff {text : String} :
    readFact text = .ok (name, c) ↔
      ∃ args, Grammar.clauseHead text = .ok (name, args) ∧ c = .fact args := by
  unfold readFact
  cases Grammar.clauseHead text with
  | error e => simp
  | ok head => simp [Prod.ext_iff, eq_comm]

/-- A rule is read if its head is one and its body has goals, all of which can be read. -/
theorem readRule_eq_ok_iff {line : String} {head body : List Char} :
    readRule line head body = .ok (name, c) ↔
      ∃ args, Grammar.clauseHead (String.ofList head) = .ok (name, args) ∧ goalTexts body ≠ [] ∧
        (∀ text ∈ goalTexts body, IsGoalText text) ∧
        c = .rule args ((goalTexts body).map BodyGoal.ofText) := by
  unfold readRule
  cases Grammar.clauseHead (String.ofList head) with
  | error e => simp
  | ok read =>
    obtain ⟨found, args⟩ := read
    dsimp only
    split
    next hnil => simp [hnil]
    next hne =>
      cases hread : readBody line (goalTexts body) with
      | error f =>
        refine iff_of_false nofun ?_
        rintro ⟨args', -, -, hgoals, -⟩
        cases hread.symm.trans (readBody_eq_ok_iff.2 ⟨rfl, hgoals⟩)
      | ok goals =>
        obtain ⟨rfl, hgoals⟩ := readBody_eq_ok_iff.1 hread
        simp only [Except.map, Except.ok.injEq, Prod.mk.injEq]
        constructor
        · rintro ⟨rfl, rfl⟩
          exact ⟨args, ⟨rfl, rfl⟩, hne, hgoals, rfl⟩
        · rintro ⟨args', ⟨rfl, rfl⟩, -, -, rfl⟩
          exact ⟨rfl, rfl⟩

/-- The message of a failure does not start like a comment. -/
theorem Failure.exists_toList_message (f : Failure) :
    ∃ first rest, first ≠ '%' ∧ f.message.toList = first :: rest := by
  cases f with
  | malformed cause text =>
    unfold message
    simp only [String.toList_append]
    exact ⟨'M', _, by decide, rfl⟩
  | exhausted resource limit =>
    unfold message
    simp only [String.toList_append]
    exact ⟨'R', _, by decide, rfl⟩

namespace Reasoner

/-- What a line does to the clauses of a reasoner. -/
inductive Effect (r : Reasoner) (line : String) (r' : Reasoner) : Prop where
  | kept (hdatabase : r'.database = r.database)
  | cleared (hline : Source.IsReset line) (heq : r' = r.reset.log "% database cleared")
  | added (name : String) (c : Clause) (hline : Defines line name c)
      (heq : r' = { r with database := r.database.add name c })

variable {r : Reasoner} {line : String}

/-- Reading a clause adds it, or reports why there is none. -/
theorem effect_define {read : Except Failure (String × Clause)}
    (h : ∀ name c, read = .ok (name, c) → Defines line name c) : r.Effect line (r.define read) := by
  cases read with
  | error f => exact .kept rfl
  | ok clause => exact .added clause.1 clause.2 (h _ _ rfl) rfl

/-- A query leaves the clauses alone. -/
theorem effect_query (goals : List Goal) : r.Effect line (r.query goals) := by
  rw [query_eq_logAll]
  exact .kept rfl

theorem effect_list : r.Effect line r.list := by
  unfold list
  split
  · exact .kept rfl
  · exact .kept rfl

theorem effect_readFact (hline : Source.IsFactLine line) :
    r.Effect line (r.define (readFact (String.ofList (Source.core line)))) := by
  refine effect_define fun name c hread => ?_
  obtain ⟨args, hhead, rfl⟩ := readFact_eq_ok_iff.1 hread
  exact .fact hline hhead

/-- Of the commands, only `RESET` touches the clauses. -/
theorem effect_command (hkind : Source.classify (Source.core line) = .command) :
    r.Effect line (r.command (String.ofList (Source.core line))) := by
  unfold command
  rw [String.toList_ofList]
  dsimp only
  split
  · exact effect_list
  · exact .kept rfl
  · exact .kept rfl
  next hreset =>
    rw [Source.classify_core] at hkind
    exact .cleared ⟨hkind, hreset⟩ rfl
  next hlisting htrace hnotrace hreset =>
    split
    next hlower =>
      refine effect_readFact (.inr ⟨hkind, ?_, hlower⟩)
      simp only [Source.commandNames, List.mem_cons, List.not_mem_nil, or_false, not_or]
      exact ⟨hlisting, htrace, hnotrace, hreset⟩
    next => exact .kept rfl

/-- Every kind of line has one of the effects. -/
theorem effect_use (r : Reasoner) (line : String) : r.Effect line (r.use (Source.core line)) := by
  unfold use
  dsimp only
  cases harrow : Source.splitAt? Source.arrow none (Source.core line) with
  | some found =>
    refine effect_define fun name c hread => ?_
    obtain ⟨args, hhead, hbody, hgoals, rfl⟩ := readRule_eq_ok_iff.1 hread
    exact .rule harrow hhead hbody hgoals
  | none =>
    cases hkind : Source.classify (Source.core line) with
    | query =>
      dsimp only
      unfold runQuery
      split
      · exact effect_query _
      · exact .kept rfl
    | fact => exact effect_readFact (.inl hkind)
    | command => exact effect_command hkind
    | rule =>
      rw [Source.classify_core_eq_rule_iff, harrow] at hkind
      cases hkind

theorem execute_of_core_eq_nil (r : Reasoner) (h : Source.core line = []) :
    (r.execute line).1 = r := by
  unfold execute
  rw [← Source.core, h]

theorem execute_of_core_ne_nil (r : Reasoner) (h : Source.core line ≠ []) :
    (r.execute line).1 = r.use (Source.core line) := by
  unfold execute
  rw [← Source.core]
  cases hcore : Source.core line with
  | nil => exact absurd hcore h
  | cons c rest => rfl

/-- Every line has one of the effects. -/
theorem effect_execute (r : Reasoner) (line : String) : r.Effect line (r.execute line).1 := by
  by_cases h : Source.core line = []
  · exact .kept (by rw [execute_of_core_eq_nil r h])
  · rw [execute_of_core_ne_nil r h]
    exact effect_use r line

/-! ## Every reachable reasoner -/

/-- The states that a reasoner comes to. -/
inductive Reachable : Reasoner → Prop where
  | fresh (limits : Limits) : Reachable (fresh limits)
  | execute {r : Reasoner} (h : Reachable r) (line : String) : Reachable (r.execute line).1
  | takeOutput {r : Reasoner} (h : Reachable r) : Reachable r.takeOutput.2
  | reset {r : Reasoner} (h : Reachable r) : Reachable r.reset

/-- A line keeps the clauses well formed. -/
theorem wellFormed_execute (h : r.database.WellFormed) (line : String) :
    (r.execute line).1.database.WellFormed := by
  cases r.effect_execute line with
  | kept hdatabase => exact hdatabase ▸ h
  | cleared hline heq =>
    rw [heq]
    exact Database.wellFormed_empty
  | added name c hline heq =>
    rw [heq]
    exact h.add name hline.wellFormed

/-- The clauses of every reachable reasoner are well formed. -/
theorem Reachable.wellFormed (h : Reachable r) : r.database.WellFormed := by
  induction h with
  | fresh limits => exact Database.wellFormed_empty
  | execute h line ih => exact wellFormed_execute ih line
  | takeOutput h ih => exact ih
  | reset h ih => exact Database.wellFormed_empty

theorem use_of_classify_ne_rule (r : Reasoner)
    (h : Source.classify (Source.core line) ≠ .rule) :
    r.use (Source.core line) =
      match Source.classify (Source.core line) with
      | .query => r.runQuery (String.ofList ((Source.core line).drop 2))
      | .fact => r.define (readFact (String.ofList (Source.core line)))
      | _ => r.command (String.ofList (Source.core line)) := by
  have harrow : Source.splitAt? Source.arrow none (Source.core line) = none := by
    rwa [← Option.not_isSome_iff_eq_none, ← Source.classify_core_eq_rule_iff]
  cases hkind : Source.classify (Source.core line) with
  | rule => exact absurd hkind h
  | query | fact | command => simp only [use, harrow, hkind]

theorem use_of_isFactLine (r : Reasoner) (h : Source.IsFactLine line) :
    r.use (Source.core line) = r.define (readFact (String.ofList (Source.core line))) := by
  rcases h with hkind | ⟨hkind, hword, hlower⟩
  · rw [use_of_classify_ne_rule r (by rw [hkind]; exact nofun), hkind]
  · rw [use_of_classify_ne_rule r (by rw [hkind]; exact nofun), hkind]
    simp only [Source.commandNames, List.mem_cons, List.not_mem_nil, or_false, not_or] at hword
    show r.command (String.ofList (Source.core line)) = _
    unfold command
    rw [String.toList_ofList]
    dsimp only
    split
    next hlisting => exact absurd hlisting hword.1
    next htrace => exact absurd htrace hword.2.1
    next hnotrace => exact absurd hnotrace hword.2.2.1
    next hreset => exact absurd hreset hword.2.2.2
    next => rw [if_pos hlower]

/-- A line that defines a clause adds it and does nothing else. -/
theorem execute_of_defines (r : Reasoner) {name : String} {c : Clause} (h : Defines line name c) :
    (r.execute line).1 = { r with database := r.database.add name c } := by
  cases h with
  | fact hline hhead =>
    have hcore : Source.core line ≠ [] := by
      intro hnil
      unfold Source.IsFactLine at hline
      rw [hnil] at hline
      rcases hline with hkind | ⟨-, -, hlower⟩
      · exact absurd hkind (by decide)
      · exact absurd hlower (by decide)
    rw [execute_of_core_ne_nil r hcore, use_of_isFactLine r hline,
      readFact_eq_ok_iff.2 ⟨_, hhead, rfl⟩]
    rfl
  | rule harrow hhead hbody hgoals =>
    have hcore : Source.core line ≠ [] := by
      intro hnil
      rw [hnil] at harrow
      cases harrow
    rw [execute_of_core_ne_nil r hcore, use, harrow]
    dsimp only
    rw [readRule_eq_ok_iff.2 ⟨_, hhead, hbody, hgoals, rfl⟩]
    rfl

theorem execute_of_isReset (r : Reasoner) (h : Source.IsReset line) :
    (r.execute line).1 = r.reset.log "% database cleared" := by
  obtain ⟨hkind, hword⟩ := h
  have hcore : Source.core line ≠ [] := by
    intro hnil
    rw [Source.commandWord, hnil] at hword
    revert hword
    decide
  rw [← Source.classify_core] at hkind
  rw [execute_of_core_ne_nil r hcore, use_of_classify_ne_rule r (by rw [hkind]; exact nofun), hkind]
  show r.command (String.ofList (Source.core line)) = _
  unfold command
  rw [String.toList_ofList]
  dsimp only
  rw [← Source.commandWord, hword]
  rfl

/-- A line that changes the clauses reports no failure. -/
theorem database_eq_of_failure (r : Reasoner) {f : Failure}
    (h : ⟨.log, f.message⟩ ∈ r.emitted line) : (r.execute line).1.database = r.database := by
  cases r.effect_execute line with
  | kept hdatabase => exact hdatabase
  | cleared hline heq =>
    have hlines : r.emitted line = [⟨.log, "% database cleared"⟩] := by
      refine emitted_eq ?_
      rw [heq]
      exact Output.lines_emit _ _ _
    rw [hlines, List.mem_singleton, OutputLine.mk.injEq] at h
    obtain ⟨first, rest, hfirst, hmessage⟩ := f.exists_toList_message
    rw [h.2] at hmessage
    exact absurd (List.cons.inj hmessage).1.symm hfirst
  | added name c hline heq =>
    have hlines : r.emitted line = [] := by
      refine emitted_eq ?_
      rw [heq, List.append_nil]
    rw [hlines] at h
    cases h

/-- The clauses change as a whole, and they stay well formed. In every state that is reached, each
predicate is listed once and has clauses, and each stored rule has goals, all of which can be read;
a query that can be read itself therefore never ends because a body cannot be read. Every further
line leaves the clauses as they are, or is `RESET` and forgets all of them, or adds the one clause
that it defines at the end of its predicate and emits nothing. A query and a line that reports a
failure leave them as they are. -/
theorem database_changes_atomically {r : Reasoner} (hr : Reachable r) :
    r.database.WellFormed ∧
    (∀ line goals, Source.classify (Source.stripComment line.toList) = .query →
      readQuery (Source.queryText line) = .ok goals →
      (r.execute line).1 = (r.withTally (r.search goals).2).logAll (r.conclusion goals) ∧
      ∀ cause text, (r.search goals).1 ≠ .error (.malformed cause text)) ∧
    ∀ line,
      ((r.execute line).1.database = r.database ∨
        (Source.IsReset line ∧ (r.execute line).1.database = .empty) ∨
        ∃ name c, Defines line name c ∧ r.database.Appends name c (r.execute line).1.database ∧
          (r.execute line).1.output = r.output) ∧
      (Source.IsReset line → (r.execute line).1.database = .empty) ∧
      (Source.classify (Source.stripComment line.toList) = .query →
        (r.execute line).1.database = r.database) ∧
      ∀ f : Failure, ⟨.log, f.message⟩ ∈ r.emitted line →
        (r.execute line).1.database = r.database := by
  refine ⟨hr.wellFormed, fun line goals hkind hread => ⟨?_, ?_⟩, fun line => ⟨?_, ?_, ?_, ?_⟩⟩
  · rw [execute_of_readQuery r hkind hread, query_eq_logAll]
  · exact search_ne_malformed hr.wellFormed goals
  · cases r.effect_execute line with
    | kept hdatabase => exact .inl hdatabase
    | cleared hline heq => exact .inr (.inl ⟨hline, by rw [heq]; rfl⟩)
    | added name c hline heq =>
      refine .inr (.inr ⟨name, c, hline, ?_, by rw [heq]⟩)
      rw [heq]
      exact hr.wellFormed.appends_add name c
  · intro hline
    rw [execute_of_isReset r hline]
    rfl
  · intro hkind
    exact (r.execute_query_unchanged hkind).1
  · intro f hf
    exact database_eq_of_failure r hf

theorem clauseHead_p : Grammar.clauseHead (String.ofList "p ".toList) = .ok ("p", []) := by
  have htokens : Tokens.ofString (String.ofList "p ".toList) =
      .ok { items := [⟨.atom "p", 0⟩], finish := 2 } := by decide +kernel
  rw [Grammar.clauseHead, htokens]
  rfl

theorem defines_oneRule : Defines "p :- q(X), !." "p"
    (.rule [] [BodyGoal.ofText "q(X)", BodyGoal.ofText "!"]) := by
  have harrow : Source.splitAt? Source.arrow none (Source.core "p :- q(X), !.") =
      some ("p ".toList, ":- q(X), !.".toList) := by decide +kernel
  have htexts : goalTexts (":- q(X), !.".toList.drop 2) = ["q(X)", "!"] := by decide +kernel
  have hgoals : ∀ text ∈ ["q(X)", "!"], IsGoalText text := by
    rw [List.forall_mem_cons, List.forall_mem_singleton]
    exact ⟨⟨by decide, _, BodyGoal.callQ.goal_eq.symm⟩, by decide, _, BodyGoal.bang.goal_eq.symm⟩
  have hdefines := Defines.rule harrow clauseHead_p (by rw [htexts]; decide) (by rw [htexts]; exact hgoals)
  rwa [htexts] at hdefines

/-- A reasoner that has executed one rule. -/
def oneRule : Reasoner := ((fresh {}).execute "p :- q(X), !.").1

theorem database_oneRule : oneRule.database =
    Database.empty.add "p" (.rule [] [BodyGoal.ofText "q(X)", BodyGoal.ofText "!"]) := by
  rw [oneRule, execute_of_defines _ defines_oneRule]
  rfl

theorem emitted_emptyGoal (r : Reasoner) : r.emitted "p :- q(X), ." =
    [⟨.log, (Failure.malformed .emptyBodyGoal "p :- q(X), .").message⟩] := by
  have hcore : Source.core "p :- q(X), ." = "p :- q(X), .".toList := by decide +kernel
  have harrow : Source.splitAt? Source.arrow none "p :- q(X), .".toList =
      some ("p ".toList, ":- q(X), .".toList) := by decide +kernel
  have hread : readRule "p :- q(X), ." "p ".toList " q(X), .".toList =
      .error (.malformed .emptyBodyGoal "p :- q(X), .") := by
    have htexts : goalTexts " q(X), .".toList = ["q(X)", ""] := by decide +kernel
    have hgoal : Goal.ofString "q(X)" = .ok (.call "q" [.var "X"]) := BodyGoal.callQ.goal_eq.symm
    rw [readRule, clauseHead_p, htexts]
    dsimp only
    rw [readBody, readGoal, hgoal]
    rfl
  refine emitted_eq ?_
  rw [execute_of_core_ne_nil r (by rw [hcore]; decide), hcore, use, harrow]
  show (r.define (readRule "p :- q(X), ." "p ".toList " q(X), .".toList)).output.lines = _
  rw [hread]
  exact Output.lines_emit _ _ _

/-- The rule `p :- q(X), !.` is stored with its two goals. A rule with an empty goal is reported and
changes nothing, and no search is stopped by the stored rule. -/
theorem database_changes_atomically_oneRule :
    Reachable oneRule ∧ oneRule.database.names = ["p"] ∧ oneRule.database.WellFormed ∧
    (oneRule.execute "p :- q(X), .").1.database = oneRule.database ∧
    ∀ cause text, (oneRule.search [.call "q" [.var "X"]]).1 ≠ .error (.malformed cause text) := by
  have hreachable : Reachable oneRule := .execute (.fresh {}) _
  obtain ⟨hwellFormed, hquery, hline⟩ := database_changes_atomically hreachable
  refine ⟨hreachable, ?_, hwellFormed, ?_, ?_⟩
  · rw [database_oneRule]
    rfl
  · obtain ⟨-, -, -, hfailure⟩ := hline "p :- q(X), ."
    refine hfailure (.malformed .emptyBodyGoal "p :- q(X), .") ?_
    rw [emitted_emptyGoal]
    exact List.mem_singleton.2 rfl
  · exact (hquery _ _ classify_callQ readQuery_queryText_callQ).2

end Reasoner

end StackLogic.Horn
