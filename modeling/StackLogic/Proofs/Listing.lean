import StackLogic.Proofs.ClauseText

/-!
# A listing is a program

A reasoner that has executed only plain lines holds clauses each of which is defined by its own text
(`Reloadable`). The listing shows these texts in the order of the predicates, and within a predicate
in the order of its clauses. Adding the clauses in this order to an empty database gives the same
database again, because its predicates are distinct and each has a clause (`addAll_entries`).
-/

namespace StackLogic.Horn

open Source

variable {name : String} {c : Clause} {d : Database}

namespace Database

/-- The clauses in the order of the listing, each with its predicate. -/
def entries (d : Database) : List (String × Clause) :=
  d.names.flatMap fun name => (d.clauses name).map (Prod.mk name)

/-- Add clauses one after the other. -/
def addAll (d : Database) (entries : List (String × Clause)) : Database :=
  entries.foldl (fun d entry => d.add entry.1 entry.2) d

/-- Clauses may be added in two parts. -/
theorem addAll_append (d : Database) (before after : List (String × Clause)) :
    d.addAll (before ++ after) = (d.addAll before).addAll after := List.foldl_append

/-! ## Rebuilding a database -/

/-- The database with these predicates in their order. -/
def ofPredicates (t : Table (List Clause)) : Database := { predicates := t, names := t.map (·.1) }

variable {before : Table (List Clause)}

/-- A clause of the latest predicate goes behind its other clauses. -/
theorem add_last (h : name ∉ before.map (·.1)) (old : List Clause) (c : Clause) :
    (ofPredicates (before ++ [(name, old)])).add name c =
      ofPredicates (before ++ [(name, old ++ [c])]) := by
  have hlookup : (before ++ [(name, old)]).lookup name = some old := by
    rw [Table.lookup_append h, Table.lookup_cons, if_pos rfl]
  rw [add_of_lookup_eq_some hlookup, ofPredicates, Table.insert_append h, Table.insert, if_pos rfl]
  simp only [ofPredicates, List.map_append, List.map_cons, List.map_nil]

/-- A clause of a new predicate goes behind all predicates. -/
theorem add_new (h : name ∉ before.map (·.1)) (c : Clause) :
    (ofPredicates before).add name c = ofPredicates (before ++ [(name, [c])]) := by
  have hinsert := Table.insert_append h [c] []
  rw [List.append_nil] at hinsert
  rw [add_of_lookup_eq_none (Table.lookup_eq_none_iff.2 h), ofPredicates, hinsert, Table.insert]
  simp only [ofPredicates, List.map_append, List.map_cons, List.map_nil]

/-- The clauses of the last predicate are added one after the other. -/
theorem addAll_last (h : name ∉ before.map (·.1)) (old new : List Clause) :
    (ofPredicates (before ++ [(name, old)])).addAll (new.map (Prod.mk name)) =
      ofPredicates (before ++ [(name, old ++ new)]) := by
  induction new generalizing old with
  | nil => rw [List.append_nil]; rfl
  | cons c rest ih =>
    show addAll (add _ name c) (rest.map (Prod.mk name)) = _
    rw [add_last h, ih, List.append_assoc, List.singleton_append]

/-- The clauses of a new predicate make it the last one. -/
theorem addAll_predicate (h : name ∉ before.map (·.1)) {clauses : List Clause}
    (hne : clauses ≠ []) :
    (ofPredicates before).addAll (clauses.map (Prod.mk name)) =
      ofPredicates (before ++ [(name, clauses)]) := by
  cases clauses with
  | nil => exact absurd rfl hne
  | cons c rest =>
    show addAll (add _ name c) (rest.map (Prod.mk name)) = _
    rw [add_new h, addAll_last h]
    rfl

/-- Predicate by predicate, the clauses rebuild the database behind what is there already. -/
theorem addAll_predicates {after : Table (List Clause)}
    (hnodup : ((before ++ after).map (·.1)).Nodup) (hne : ∀ entry ∈ after, entry.2 ≠ []) :
    (ofPredicates before).addAll (after.flatMap fun entry => entry.2.map (Prod.mk entry.1)) =
      ofPredicates (before ++ after) := by
  induction after generalizing before with
  | nil => rw [List.append_nil]; rfl
  | cons entry rest ih =>
    obtain ⟨name, clauses⟩ := entry
    obtain ⟨hclauses, hrest⟩ := List.forall_mem_cons.1 hne
    have hname : name ∉ before.map (·.1) := by
      rw [List.map_append, List.map_cons] at hnodup
      intro hmem
      exact (List.disjoint_of_nodup_append hnodup) hmem List.mem_cons_self
    have hmoved : before ++ (name, clauses) :: rest = (before ++ [(name, clauses)]) ++ rest := by
      rw [List.append_assoc, List.singleton_append]
    rw [hmoved] at hnodup
    rw [List.flatMap_cons, addAll_append, addAll_predicate hname hclauses, ih hnodup hrest, hmoved]

theorem WellFormed.clauses_of_mem (h : d.WellFormed) {clauses : List Clause}
    (hmem : (name, clauses) ∈ d.predicates) : d.clauses name = clauses := by
  obtain ⟨before, after, hpredicates⟩ := List.append_of_mem hmem
  have hnodup := h.nodup
  rw [← h.keys, hpredicates, List.map_append, List.map_cons] at hnodup
  have hbefore : name ∉ before.map (·.1) := fun hname =>
    (List.disjoint_of_nodup_append hnodup) hname List.mem_cons_self
  rw [Database.clauses, hpredicates, Table.lookup_append hbefore, Table.lookup_cons, if_pos rfl]
  rfl

/-- A well-formed database is what its clauses give in the order of the listing. -/
theorem addAll_entries (h : d.WellFormed) : empty.addAll d.entries = d := by
  have hentries : d.entries =
      d.predicates.flatMap fun entry => entry.2.map (Prod.mk entry.1) := by
    rw [entries, ← h.keys, List.flatMap_map]
    exact List.flatMap_congr fun entry hentry => by rw [h.clauses_of_mem hentry]
  have hne : ∀ entry ∈ d.predicates, entry.2 ≠ [] := by
    intro entry hentry
    have hmem : entry.1 ∈ d.names := h.keys ▸ List.mem_map_of_mem hentry
    have hclauses := h.clauses_ne_nil entry.1 ((h.mem_names_iff entry.1).1 hmem)
    rwa [h.clauses_of_mem hentry] at hclauses
  have hkeys : ofPredicates d.predicates = d := by rw [ofPredicates, h.keys]
  have hnodup : (([] ++ d.predicates : Table (List Clause)).map (·.1)).Nodup := by
    rw [List.nil_append, h.keys]
    exact h.nodup
  rw [hentries]
  have hall := addAll_predicates hnodup hne
  rw [List.nil_append, hkeys] at hall
  exact hall

/-- What is listed is stored. -/
theorem mem_clauses_of_mem_entries {entry : String × Clause} (hentry : entry ∈ d.entries) :
    entry.2 ∈ d.clauses entry.1 := by
  obtain ⟨name, -, hentry⟩ := List.mem_flatMap.1 hentry
  obtain ⟨c, hc, rfl⟩ := List.mem_map.1 hentry
  exact hc

end Database

/-! ## The lines of a listing -/

theorem Clause.display_ne_empty (name : String) (c : Clause) : c.display name ≠ "" := by
  intro h
  have hlast : (c.display name).toList.getLast? = none := by
    rw [h]
    rfl
  cases c with
  | fact args => simp [Clause.display] at hlast
  | rule args body => simp [Clause.display] at hlast

/-- Empty lines between texts that are not empty are told apart from them. -/
theorem filter_intercalate {groups : List (List String)}
    (h : ∀ group ∈ groups, ∀ text ∈ group, text ≠ "") :
    ([""].intercalate groups).filter (· ≠ "") = groups.flatten := by
  induction groups with
  | nil => rfl
  | cons group others ih =>
    obtain ⟨hgroup, hothers⟩ := List.forall_mem_cons.1 h
    have hkept : group.filter (· ≠ "") = group :=
      List.filter_eq_self.2 fun text htext => by simpa using hgroup text htext
    cases others with
    | nil => rw [List.intercalate_singleton, hkept, List.flatten_singleton]
    | cons next more =>
      rw [List.intercalate_cons_cons, List.filter_append, List.filter_append, hkept, ih hothers,
        List.flatten_cons]
      simp

namespace Database

/-- The lines of a listing that are not empty show the clauses in order. -/
theorem filter_listing (d : Database) :
    d.listing.filter (· ≠ "") = d.entries.map fun entry => entry.2.display entry.1 := by
  rw [listing, filter_intercalate, entries, List.map_flatMap, List.flatMap_def]
  · simp only [List.map_map, Function.comp_def]
  · intro group hgroup text htext
    obtain ⟨name, -, rfl⟩ := List.mem_map.1 hgroup
    obtain ⟨c, -, rfl⟩ := List.mem_map.1 htext
    exact c.display_ne_empty name

/-- Each clause is defined by its own text. -/
def Reloadable (d : Database) : Prop :=
  ∀ name, ∀ c ∈ d.clauses name, Defines (c.display name) name c

theorem reloadable_empty : empty.Reloadable := fun _ => List.forall_mem_nil _

/-- A clause that its own line defines keeps the database reloadable. -/
theorem Reloadable.add (h : d.Reloadable) (hc : Defines (c.display name) name c) :
    (d.add name c).Reloadable := by
  intro other c' hc'
  rw [clauses_add] at hc'
  split at hc'
  next heq =>
    rw [List.mem_append, List.mem_singleton] at hc'
    rcases hc' with hold | rfl
    · exact h other c' hold
    · exact heq ▸ hc
  next => exact h other c' hc'

end Database

/-! ## Executing a listing -/

namespace Reasoner

variable {r : Reasoner} {lines : List String}

/-- Execute lines one after the other. -/
def executeAll (r : Reasoner) (lines : List String) : Reasoner :=
  lines.foldl (fun r line => (r.execute line).1) r

/-- Plain lines keep the database reloadable. -/
theorem reloadable_execute {line : String} (h : r.database.Reloadable) (hline : IsPlainLine line) :
    (r.execute line).1.database.Reloadable := by
  cases r.effect_execute line with
  | kept hdatabase => exact hdatabase ▸ h
  | cleared _ heq =>
    rw [heq]
    exact Database.reloadable_empty
  | added name c hdefines heq =>
    rw [heq]
    exact h.add (hdefines.display hline)

/-- Plain lines keep a database well formed and reloadable. -/
theorem executeAll_preserves (hwellFormed : r.database.WellFormed) (h : r.database.Reloadable)
    (hlines : ∀ line ∈ lines, IsPlainLine line) :
    (r.executeAll lines).database.WellFormed ∧ (r.executeAll lines).database.Reloadable := by
  induction lines generalizing r with
  | nil => exact ⟨hwellFormed, h⟩
  | cons line rest ih =>
    obtain ⟨hline, hrest⟩ := List.forall_mem_cons.1 hlines
    exact ih (wellFormed_execute hwellFormed line) (reloadable_execute h hline) hrest

/-- Lines that define clauses add them one after the other and do nothing else. -/
theorem executeAll_of_defines (r : Reasoner) {entries : List (String × Clause)}
    (h : ∀ entry ∈ entries, Defines (entry.2.display entry.1) entry.1 entry.2) :
    r.executeAll (entries.map fun entry => entry.2.display entry.1) =
      { r with database := r.database.addAll entries } := by
  induction entries generalizing r with
  | nil => rfl
  | cons entry rest ih =>
    obtain ⟨hentry, hrest⟩ := List.forall_mem_cons.1 h
    show executeAll (r.execute (entry.2.display entry.1)).1 _ = _
    rw [execute_of_defines r hentry, ih _ hrest]
    rfl

/-- The listing of a reasoner that has executed plain lines is a program for the same clauses: a
fresh reasoner that executes its lines, without the empty ones, comes to the same predicates in the
same order, each with the same clauses in the same order, and nothing else about it changes. -/
theorem listing_reloads (limits limits' : Limits) {lines : List String}
    (h : ∀ line ∈ lines, IsPlainLine line) :
    (fresh limits').executeAll
        ((((fresh limits).executeAll lines).database.listing).filter (· ≠ "")) =
      { fresh limits' with database := ((fresh limits).executeAll lines).database } := by
  obtain ⟨hwellFormed, hreloadable⟩ :=
    executeAll_preserves (r := fresh limits) Database.wellFormed_empty Database.reloadable_empty h
  rw [Database.filter_listing, executeAll_of_defines]
  · have hempty : (fresh limits').database = .empty := rfl
    rw [hempty, Database.addAll_entries hwellFormed]
  · intro entry hentry
    exact hreloadable _ _ (Database.mem_clauses_of_mem_entries hentry)

/-- A fact whose text holds all that divides lines, and a rule. -/
def plainProgram : List String := ["q(\x22%, :-\x22, [-1]).", "p :- q(X), !."]

theorem showsHead_plainProgram : ShowsHead "q(\x22%, :-\x22, [-1])".toList
    [.atom "q", .openParen, .str "%, :-", .comma, .openBracket, .symbol "-", .int 1, .closeBracket,
      .closeParen] := by
  have hpasses : Passes ['q'] := passes_of_forall (List.forall_mem_singleton.2 (by decide))
  have hname : ShowsHead ['q'] [.atom "q"] :=
    showsHead_atom (.atom (by decide) (List.forall_mem_nil _)) hpasses
  have hquote : '\x22' ∉ "%, :-".toList := by decide
  have hstr : Shows "\x22%, :-\x22".toList [.str "%, :-"] :=
    shows_of_writes (.str hquote (by decide)) (passes_quoted hquote)
  have hlist : Shows "[-1]".toList [.openBracket, .symbol "-", .int 1, .closeBracket] :=
    (shows_negative (k := 1) (n := 1) (by decide)).brackets
  exact hname.parens (hstr.comma hlist)

theorem core_plainProgram :
    core "q(\x22%, :-\x22, [-1])." = "q(\x22%, :-\x22, [-1])".toList ++ ['.'] := by
  decide +kernel

theorem defines_plainProgram : Defines "q(\x22%, :-\x22, [-1])." "q"
    (.fact [.str "%, :-", .list [.num (.int (-1))]]) := by
  have hnumber : ∀ part ∈ [([Lexeme.symbol "-", .int 1], Term.num (.int (-1)))],
      Spells part.1 part.2 := List.forall_mem_singleton.2 (.negInt 1)
  have hargs : ∀ part ∈ [([Lexeme.str "%, :-"], Term.str "%, :-"),
      ([.openBracket, .symbol "-", .int 1, .closeBracket], .list [.num (.int (-1))])],
      Spells part.1 part.2 :=
    List.forall_mem_cons.2 ⟨.str _, List.forall_mem_singleton.2 (.list hnumber)⟩
  refine .fact (.inl (by rw [core_plainProgram]; decide +kernel)) ?_
  rw [core_plainProgram, Grammar.clauseHead_eq_ok_iff, String.toList_ofList]
  exact ⟨_, _, showsHead_plainProgram.lexes_point, .compound (by simp) hargs, .inr rfl⟩

theorem isPlainLine_plainProgram : ∀ line ∈ plainProgram, IsPlainLine line := by
  rw [plainProgram, List.forall_mem_cons, List.forall_mem_singleton]
  constructor
  · have hhead : headText "q(\x22%, :-\x22, [-1])." =
        "q(\x22%, :-\x22, [-1])".toList ++ ['.'] := by decide +kernel
    have hlexes := showsHead_plainProgram.lexes_point
    rw [← hhead] at hlexes
    exact IsPlainLine.of_lexes (by decide) (by decide) hlexes (by simp)
  · have hhead : headText "p :- q(X), !." = ['p'] ++ [' '] := by decide +kernel
    have hpasses : Passes ['p'] := passes_of_forall (List.forall_mem_singleton.2 (by decide))
    have hname : ShowsHead ['p'] [.atom "p"] :=
      showsHead_atom (.atom (by decide) (List.forall_mem_nil _)) hpasses
    have hlexes := hname.lexes_space
    rw [← hhead] at hlexes
    exact IsPlainLine.of_lexes (by decide) (by decide) hlexes (by simp)

/-- Both lines are plain and define a clause each, and the listing defines both clauses again. -/
theorem listing_reloads_plainProgram :
    (∀ line ∈ plainProgram, IsPlainLine line) ∧
    ((fresh {}).executeAll plainProgram).database =
      (Database.empty.add "q" (.fact [.str "%, :-", .list [.num (.int (-1))]])).add "p"
        (.rule [] [BodyGoal.ofText "q(X)", BodyGoal.ofText "!"]) ∧
    (fresh {}).executeAll
        ((((fresh {}).executeAll plainProgram).database.listing).filter (· ≠ "")) =
      { fresh {} with database := ((fresh {}).executeAll plainProgram).database } := by
  refine ⟨isPlainLine_plainProgram, ?_, listing_reloads {} {} isPlainLine_plainProgram⟩
  show (((fresh {}).execute _).1.execute _).1.database = _
  rw [execute_of_defines _ defines_plainProgram, execute_of_defines _ defines_oneRule]
  rfl

end Reasoner

end StackLogic.Horn
