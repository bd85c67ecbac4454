import StackLogic.Proofs.History
import StackLogic.Proofs.SearchRuns

/-!
# Queries end within their bounds

Whatever the clauses are, the search of a query has a run (`Reasoner.exists_runs`). Along every run,
clauses are tried only at depths below the limit (`Runs.allowed`), and a run stops at the first step
beyond the limit or at the first call that is refused (`Runs.ending`). So the search of a query is
bounded, and it says so if it was stopped.
-/

namespace StackLogic.Horn

variable {w : Setting} {α : Type} {d : Nat} {task : Task α} {s t : Tally} {events : List Event}
  {result : Except Failure α}

/-! ## What is tried in a run -/

/-- A task that comes up in a search: a cut is no goal to be tried, and clauses are tried only at a
depth below the limit. -/
def Task.Arises (w : Setting) (d : Nat) : {α : Type} → Task α → Prop
  | _, .frames .. => True
  | _, .goal g _ => g ≠ .cut
  | _, .clauses .. => d < w.limits.proofDepth

/-- No cut is tried as a goal, and no clause at a depth at or beyond the limit. -/
def Event.Allowed (w : Setting) : Event → Prop
  | .goalTried g _ => g ≠ .cut
  | .clauseTried d _ => d < w.limits.proofDepth
  | .callRefused => True

/-- Cuts are never tried as goals, and clauses are used within the depth limit only. -/
theorem Runs.allowed (h : Runs w d task s events result t) (htask : task.Arises w d) :
    ∀ e ∈ events, e.Allowed w := by
  induction h with
  | done | noClause => exact List.forall_mem_nil _
  | leave _ ih | found _ ih | cut _ ih => exact ih trivial
  | failed hg _ ih => exact ih hg
  | proved hg _ _ ihgoal ihrest =>
    exact List.forall_mem_append.2 ⟨ihgoal hg, ihrest trivial⟩
  | outOfSteps | builtin => exact List.forall_mem_singleton.2 htask
  | tooDeep => exact List.forall_mem_cons.2 ⟨htask, List.forall_mem_singleton.2 trivial⟩
  | called _ hdepth _ ih | callFailed _ hdepth _ ih =>
    exact List.forall_mem_cons.2 ⟨htask, ih hdepth⟩
  | mismatch _ _ ih => exact List.forall_mem_cons.2 ⟨htask, ih htask⟩
  | unreadable => exact List.forall_mem_singleton.2 htask
  | bodyFailed _ _ _ ih | bodyCut _ _ _ _ ih => exact List.forall_mem_cons.2 ⟨htask, ih trivial⟩
  | bodyProved _ _ _ _ _ ih ihrest =>
    exact List.forall_mem_cons.2
      ⟨htask, List.forall_mem_append.2 ⟨ih trivial, ihrest htask⟩⟩

/-! ## How a run ends -/

/-- How a run of a search ends. -/
inductive Ending (w : Setting) (events : List Event) (result : Except Failure α) (t : Tally) :
    Prop where
  /-- No limit is exceeded. -/
  | within (hsteps : t.steps ≤ w.limits.proofSteps) (hrefused : .callRefused ∉ events)
      (hresult : ∀ resource limit, result ≠ .error (.exhausted resource limit))
  /-- The last event is the first step beyond the limit. -/
  | outOfSteps (before : List Event) (g : Goal) (hsteps : t.steps = w.limits.proofSteps + 1)
      (hevents : events = before ++ [.goalTried g t.steps]) (hrefused : .callRefused ∉ before)
      (hresult : result = .error (.exhausted .steps w.limits.proofSteps))
  /-- The last event is the first call that is refused. -/
  | tooDeep (before : List Event) (hsteps : t.steps ≤ w.limits.proofSteps)
      (hevents : events = before ++ [.callRefused]) (hrefused : .callRefused ∉ before)
      (hresult : result = .error (.exhausted .depth w.limits.proofDepth))

/-- A search that comes to its end stays within the step limit, and no call was refused. -/
theorem Ending.steps_le_of_ok {a : α} (h : Ending w events (.ok a) t) :
    t.steps ≤ w.limits.proofSteps ∧ .callRefused ∉ events := by
  cases h with
  | within hsteps hrefused _ => exact ⟨hsteps, hrefused⟩
  | outOfSteps _ _ _ _ _ hresult => cases hresult
  | tooDeep _ _ _ _ hresult => cases hresult

/-- A run ends as its last part does, if no call is refused before. -/
theorem Ending.prepend {β : Type} {earlier : List Event} {outcome : Except Failure β}
    (h : Ending w events result t) (hearlier : .callRefused ∉ earlier)
    (hresult : ∀ resource limit,
      outcome = .error (.exhausted resource limit) ↔ result = .error (.exhausted resource limit)) :
    Ending w (earlier ++ events) outcome t := by
  cases h with
  | within hsteps hrefused hnone =>
    refine .within hsteps ?_ fun resource limit h => hnone resource limit ((hresult _ _).1 h)
    rw [List.mem_append]
    exact not_or.2 ⟨hearlier, hrefused⟩
  | outOfSteps before g hsteps hevents hrefused hfailed =>
    refine .outOfSteps (earlier ++ before) g hsteps ?_ ?_ ((hresult _ _).2 hfailed)
    · rw [hevents, List.append_assoc]
    · rw [List.mem_append]
      exact not_or.2 ⟨hearlier, hrefused⟩
  | tooDeep before hsteps hevents hrefused hfailed =>
    refine .tooDeep (earlier ++ before) hsteps ?_ ?_ ((hresult _ _).2 hfailed)
    · rw [hevents, List.append_assoc]
    · rw [List.mem_append]
      exact not_or.2 ⟨hearlier, hrefused⟩

theorem Ending.cons {β : Type} {e : Event} {outcome : Except Failure β}
    (h : Ending w events result t) (he : e ≠ .callRefused)
    (hresult : ∀ resource limit,
      outcome = .error (.exhausted resource limit) ↔ result = .error (.exhausted resource limit)) :
    Ending w (e :: events) outcome t := by
  have hearlier : Event.callRefused ∉ [e] := mt List.mem_singleton.1 he.symm
  exact h.prepend hearlier hresult

theorem malformed_of_instantiate {k : Nat} {body : List BodyGoal} {f : Failure}
    (h : instantiate k body = .error f) : ∃ cause text, f = .malformed cause text := by
  induction body with
  | nil => cases h
  | cons part rest ih =>
    rw [instantiate_cons] at h
    split at h
    next g _ =>
      cases hrest : instantiate k rest with
      | ok goals =>
        rw [hrest] at h
        cases h
      | error f' =>
        rw [hrest] at h
        cases h
        exact ih hrest
    next e _ =>
      cases h
      exact ⟨_, _, rfl⟩

/-- Every run ends in one of these ways. -/
theorem Runs.ending (h : Runs w d task s events result t) (hs : s.steps ≤ w.limits.proofSteps) :
    Ending w events result t := by
  induction h with
  | done | noClause => exact .within hs List.not_mem_nil (by simp)
  | leave _ ih | found _ ih | cut _ ih => exact ih hs
  | failed _ _ ih => exact (ih hs).prepend List.not_mem_nil (by simp)
  | proved _ _ _ ihgoal ihrest =>
    obtain ⟨hsteps, hrefused⟩ := (ihgoal hs).steps_le_of_ok
    exact (ihrest hsteps).prepend hrefused (by simp)
  | outOfSteps hsteps =>
    exact .outOfSteps [] _ (congrArg (· + 1) (Nat.le_antisymm hs hsteps)) rfl List.not_mem_nil rfl
  | builtin hsteps hg h =>
    obtain ⟨found, output, hproved⟩ := onlyEmits_proveWith hg _ _
    cases hproved.symm.trans (h fun _ _ _ => pure [])
    exact .within hsteps (by simp) (by simp)
  | tooDeep hsteps _ => exact .tooDeep [_] hsteps rfl (by simp) rfl
  | called hsteps _ _ ih =>
    obtain ⟨hle, hrefused⟩ := (ih hsteps).steps_le_of_ok
    exact .within hle (by simp [hrefused]) (by simp)
  | callFailed hsteps _ _ ih => exact (ih hsteps).cons (by simp) (by simp)
  | mismatch _ _ ih => exact (ih hs).cons (by simp) (by simp)
  | unreadable _ hbody =>
    obtain ⟨cause, text, rfl⟩ := malformed_of_instantiate hbody
    exact .within hs (by simp) (by simp)
  | bodyFailed _ _ _ ih => exact (ih hs).cons (by simp) (by simp)
  | bodyCut _ _ _ _ ih => exact (ih hs).cons (by simp) (by simp)
  | @bodyProved _ _ _ _ _ _ _ _ _ _ _ _ _ result _ _ _ _ _ ih ihrest =>
    obtain ⟨hsteps, hrefused⟩ := (ih hs).steps_le_of_ok
    refine ((ihrest hsteps).prepend hrefused fun _ _ => Iff.rfl).cons (by simp) fun _ _ => ?_
    cases result <;> simp [Except.map]

/-- One step beyond the limit ends the search. -/
theorem Runs.steps_le (h : Runs w d task s events result t) (hs : s.steps ≤ w.limits.proofSteps) :
    t.steps ≤ w.limits.proofSteps + 1 := by
  cases h.ending hs with
  | within hsteps _ _ => omega
  | outOfSteps _ _ hsteps _ _ _ => omega
  | tooDeep _ hsteps _ _ _ => omega

/-- A step has a number that was counted. -/
theorem Runs.step_le (h : Runs w d task s events result t) {g : Goal} {n : Nat}
    (hn : .goalTried g n ∈ events) : n ≤ t.steps := by
  obtain ⟨k, hk, hnumbers⟩ := h.steps_eq
  have hmem : n ∈ events.filterMap Event.step? := List.mem_filterMap.2 ⟨_, hn, rfl⟩
  rw [hnumbers, List.mem_range'_1] at hmem
  omega

/-- The search runs out of steps exactly if a goal is tried beyond the limit and no call was refused
before. -/
theorem Runs.outOfSteps_iff (h : Runs w d task s events result t)
    (hs : s.steps ≤ w.limits.proofSteps) :
    result = .error (.exhausted .steps w.limits.proofSteps) ↔
      ∃ before g n after, events = before ++ .goalTried g n :: after ∧
        w.limits.proofSteps < n ∧ .callRefused ∉ before := by
  constructor
  · intro hresult
    cases h.ending hs with
    | within _ _ hnone => exact absurd hresult (hnone _ _)
    | outOfSteps before g hsteps hevents hrefused _ =>
      exact ⟨before, g, t.steps, [], hevents, by omega, hrefused⟩
    | tooDeep _ _ _ _ hdeep => cases hdeep.symm.trans hresult
  · rintro ⟨before, g, n, after, hevents, hn, _⟩
    have hle : n ≤ t.steps := h.step_le (g := g) (by rw [hevents]; simp)
    cases h.ending hs with
    | within hsteps _ _ => omega
    | outOfSteps _ _ _ _ _ hresult => exact hresult
    | tooDeep _ hsteps _ _ _ => omega

/-- The search is too deep exactly if a call is refused. -/
theorem Runs.tooDeep_iff (h : Runs w d task s events result t)
    (hs : s.steps ≤ w.limits.proofSteps) :
    result = .error (.exhausted .depth w.limits.proofDepth) ↔ .callRefused ∈ events := by
  constructor
  · intro hresult
    cases h.ending hs with
    | within _ _ hnone => exact absurd hresult (hnone _ _)
    | outOfSteps _ _ _ _ _ hsteps => cases hsteps.symm.trans hresult
    | tooDeep before _ hevents _ _ =>
      rw [hevents]
      exact List.mem_append_right _ List.mem_cons_self
  · intro hmem
    cases h.ending hs with
    | within _ hrefused _ => exact absurd hmem hrefused
    | outOfSteps before g _ hevents hrefused _ =>
      rw [hevents, List.mem_append, List.mem_singleton] at hmem
      rcases hmem with hmem | hmem
      · exact absurd hmem hrefused
      · cases hmem
    | tooDeep _ _ _ _ hresult => exact hresult

/-! ## Queries -/

namespace Reasoner

/-- A run of the search for the goals of a query. It begins at depth zero and with no steps. -/
def Runs (r : Reasoner) (goals : List Goal) : List Event → Except Failure Proof → Tally → Prop :=
  Horn.Runs r.setting 0 (.frames [] false [⟨goals, [.empty]⟩])
    { steps := 0, activations := r.activations, output := r.output }

/-- What the limits mean for the events of a query, its result and its counts. -/
structure Bounded (r : Reasoner) (events : List Event) (result : Except Failure Proof)
    (t : Tally) : Prop where
  /-- The steps are the goals that are tried, numbered from one on. -/
  numbered : events.filterMap Event.step? = List.range' 1 t.steps
  /-- Only cuts are passed without a step. -/
  ne_cut : ∀ g n, .goalTried g n ∈ events → g ≠ .cut
  steps_le : t.steps ≤ r.limits.proofSteps + 1
  /-- Clauses are tried at depths below the limit. -/
  depth_lt : ∀ d clause, .clauseTried d clause ∈ events → d < r.limits.proofDepth
  /-- No use of a clause is missing among the events. -/
  uses : t.activations = r.activations + events.countP Event.isUse
  /-- The query is out of steps if a step beyond the limit comes before any refused call. -/
  outOfSteps_iff : result = .error (.exhausted .steps r.limits.proofSteps) ↔
    ∃ before g n after, events = before ++ .goalTried g n :: after ∧ r.limits.proofSteps < n ∧
      .callRefused ∉ before
  tooDeep_iff : result = .error (.exhausted .depth r.limits.proofDepth) ↔ .callRefused ∈ events

variable {r : Reasoner} {goals : List Goal} {events : List Event} {result : Except Failure Proof}
  {t : Tally}

/-- Every query has a run. -/
theorem exists_runs (r : Reasoner) (goals : List Goal) :
    ∃ events result t, r.Runs goals events result t :=
  ends_frames (ends_goal r.setting 0) [] false [⟨goals, [.empty]⟩] _

theorem Runs.search_eq (h : r.Runs goals events result t) : r.search goals = (result, t) :=
  Horn.Runs.search_eq h

theorem Runs.bounded (h : r.Runs goals events result t) : r.Bounded events result t := by
  have hs : 0 ≤ r.limits.proofSteps := Nat.zero_le _
  have hallowed := Horn.Runs.allowed h trivial
  obtain ⟨n, hn, hnumbers⟩ := Horn.Runs.steps_eq h
  obtain rfl : t.steps = n := by
    dsimp only at hn
    omega
  exact
    { numbered := hnumbers
      ne_cut := fun g n hmem => hallowed _ hmem
      steps_le := Horn.Runs.steps_le h hs
      depth_lt := fun d clause hmem => hallowed _ hmem
      uses := Horn.Runs.activations_eq h
      outOfSteps_iff := Horn.Runs.outOfSteps_iff h hs
      tooDeep_iff := Horn.Runs.tooDeep_iff h hs }

/-- A query changes neither clauses nor reports, also if it is stopped. -/
theorem execute_query_unchanged (r : Reasoner) {line : String}
    (hline : Source.classify (Source.stripComment line.toList) = .query) :
    (r.execute line).1.database = r.database ∧ (r.execute line).1.trace = r.trace := by
  have hsearched : ∀ text, (r.searched text).database = r.database ∧
      (r.searched text).trace = r.trace := by
    intro text
    unfold searched
    cases readQuery text with
    | error f => exact ⟨rfl, rfl⟩
    | ok goals => exact ⟨rfl, rfl⟩
  rw [r.execute_of_classify_query hline, r.runQuery_eq_logAll, logAll]
  dsimp only
  exact hsearched _

/-- A query that can be read ends as its run does. -/
theorem Runs.execute_eq (h : r.Runs goals events result t) {line : String}
    (hline : Source.classify (Source.stripComment line.toList) = .query)
    (hread : readQuery (Source.queryText line) = .ok goals) :
    (r.execute line).1 = (r.withTally t).logAll (r.conclusion goals) := by
  rw [r.execute_of_readQuery hline hread, r.query_eq_logAll, h.search_eq]

/-- Whatever the clauses and the limits are, the search of a query comes to an end. No clause is tried
by a call at the limit of depth or beyond. The step count begins at zero, counts the goals that are
tried, each but a cut, and exceeds its limit by one at most. The query is out of steps exactly if the
count exceeds its limit before a call is refused. Clauses and reports are left as they were, and the
next query counts its own steps only. -/
theorem query_ends_within_limits (r : Reasoner) {line : String}
    (hline : Source.classify (Source.stripComment line.toList) = .query) :
    ((r.execute line).1.database = r.database ∧ (r.execute line).1.trace = r.trace) ∧
    ∀ goals, readQuery (Source.queryText line) = .ok goals →
      (∃ events result t, r.Runs goals events result t) ∧
      (∀ events result t, r.Runs goals events result t →
        r.search goals = (result, t) ∧
        (r.execute line).1 = (r.withTally t).logAll (r.conclusion goals) ∧
        r.Bounded events result t) ∧
      ∀ next more, Source.classify (Source.stripComment next.toList) = .query →
        readQuery (Source.queryText next) = .ok more →
        ∀ events result t, (r.execute line).1.Runs more events result t →
          ((r.execute line).1.execute next).1.steps = (events.filterMap Event.step?).length := by
  refine ⟨r.execute_query_unchanged hline, fun goals hread => ⟨r.exists_runs goals, ?_, ?_⟩⟩
  · intro events result t h
    exact ⟨h.search_eq, h.execute_eq hline hread, h.bounded⟩
  · intro next more hnext hmore events result t h
    rw [h.execute_eq hnext hmore, h.bounded.numbered, List.length_range']
    rfl

/-- The rule `q(X) :- q(X)` and two steps for each query. -/
def endlessInTwoSteps : Reasoner where
  database := Database.empty.add "q" (.rule [.var "X"] [.callQ])
  limits := { proofSteps := 2 }

/-- `?- q(X).` is stopped at the third step, and again if it is repeated. -/
theorem query_ends_within_limits_endless :
    Source.classify (Source.stripComment "?- q(X).".toList) = .query ∧
    ∃ events t, endlessInTwoSteps.Runs [.call "q" [.var "X"]] events
        (.error (.exhausted .steps 2)) t ∧
      events.filterMap Event.step? = [1, 2, 3] ∧
      (endlessInTwoSteps.execute "?- q(X).").1.steps = 3 ∧
      ((endlessInTwoSteps.execute "?- q(X).").1.execute "?- q(X).").1.steps = 3 := by
  obtain ⟨-, hquery⟩ := query_ends_within_limits endlessInTwoSteps classify_callQ
  obtain ⟨⟨events, result, t, hrun⟩, hends, hnext⟩ := hquery _ readQuery_queryText_callQ
  obtain ⟨hsearch, hexecute, hbounded⟩ := hends events result t hrun
  have hsteps : t.steps = 3 := by
    have hcount : (endlessInTwoSteps.search [.call "q" [.var "X"]]).2.steps = 3 := by
      rw [search_eq_depthFirst]
      decide +kernel
    rwa [hsearch] at hcount
  have hresult : result = .error (.exhausted .steps 2) := by
    have hfailure : (endlessInTwoSteps.search [.call "q" [.var "X"]]).1.map (fun _ => ()) =
        .error (.exhausted .steps 2) := by
      rw [search_eq_depthFirst]
      decide +kernel
    rw [hsearch] at hfailure
    cases result with
    | ok proof => cases hfailure
    | error f =>
      cases hfailure
      rfl
  have hagain : ((endlessInTwoSteps.execute "?- q(X).").1.search
      [.call "q" [.var "X"]]).2.steps = 3 := by
    rw [execute_of_readQuery _ classify_callQ readQuery_queryText_callQ, query_eq_logAll]
    simp only [conclusion, search_eq_depthFirst]
    decide +kernel
  obtain ⟨events', result', t', hrun'⟩ :=
    (endlessInTwoSteps.execute "?- q(X).").1.exists_runs [.call "q" [.var "X"]]
  rw [hrun'.search_eq] at hagain
  subst hresult
  refine ⟨classify_callQ, events, t, hrun, ?_, ?_, ?_⟩
  · rw [hbounded.numbered, hsteps]
    rfl
  · rw [hexecute]
    exact hsteps
  · rw [hnext _ _ classify_callQ readQuery_queryText_callQ events' result' t' hrun',
      hrun'.bounded.numbered, List.length_range', hagain]

end Reasoner

end StackLogic.Horn
