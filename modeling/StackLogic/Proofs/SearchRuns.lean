import StackLogic.Proofs.DepthFirst

/-!
# Runs of a search

`Runs` gives the rules of a search: when a goal is tried, when it is out of steps, when a call is
refused because it is nested too deep, and in which order frames and clauses are worked through. The
rules count the depth of calls from the query on, and they record the events of the search.

Every goal has a run, whatever the clauses are (`ends_goal`), and each run ends as the search does
(`Runs.search_eq`). What holds of every run therefore holds of the search: here, that its steps are
numbered without a gap and that every use of a clause is counted.
-/

namespace StackLogic.Horn

namespace Search

variable {α β : Type} {x : Search α} {f : α → Search β} {s t : Tally}

theorem bind_of_ok {a : α} (h : x s = (.ok a, t)) : (x >>= f) s = f a t := by
  rw [bind_apply, h]

theorem bind_of_error {e : Failure} (h : x s = (.error e, t)) : (x >>= f) s = (.error e, t) := by
  rw [bind_apply, h]

end Search

/-! ## Runs of a search -/

/-- What happens in a search. -/
inductive Event where
  /-- A goal is tried, as the step with this number. -/
  | goalTried (g : Goal) (step : Nat)
  /-- A call at this depth tries a clause. -/
  | clauseTried (depth : Nat) (clause : Clause)
  /-- A call is nested too deep. -/
  | callRefused

/-- A part of a search, by the type of its result. -/
inductive Task : Type → Type where
  /-- Work through frames. -/
  | frames (found : List Bindings) (cut : Bool) (pending : List Frame) : Task Proof
  /-- Try a goal. -/
  | goal (g : Goal) (b : Bindings) : Task (List Bindings)
  /-- Try clauses for a call with these arguments. -/
  | clauses (args : List Term) (b : Bindings) (left : List Clause) : Task (List Bindings)

/-- Unify arguments with the head of a clause, renamed for its `k`-th use. -/
def Clause.unifyHead (clause : Clause) (k : Nat) (args : List Term) (b : Bindings) :
    Option Bindings :=
  unifyAll args (Term.renameAll (Term.freshName k) clause.args) b

/-- At this depth the task has a run with these events, from the first tally to the result and the
last tally. -/
inductive Runs (w : Setting) : {α : Type} → Nat → Task α → Tally → List Event →
    Except Failure α → Tally → Prop where
  -- frames: the next alternative is the first one of the innermost frame
  | done {d : Nat} {found : List Bindings} {cut : Bool} {s : Tally} :
      Runs w d (.frames found cut []) s [] (.ok ⟨found.reverse, cut⟩) s
  | leave {d : Nat} {found : List Bindings} {cut : Bool} {goals : List Goal} {outer : List Frame}
      {s t : Tally} {events : List Event} {result : Except Failure Proof}
      (h : Runs w d (.frames found cut outer) s events result t) :
      Runs w d (.frames found cut (⟨goals, []⟩ :: outer)) s events result t
  | found {d : Nat} {found : List Bindings} {cut : Bool} {b : Bindings} {more : List Bindings}
      {outer : List Frame} {s t : Tally} {events : List Event} {result : Except Failure Proof}
      (h : Runs w d (.frames (b :: found) cut (⟨[], more⟩ :: outer)) s events result t) :
      Runs w d (.frames found cut (⟨[], b :: more⟩ :: outer)) s events result t
  | cut {d : Nat} {found : List Bindings} {cut : Bool} {b : Bindings} {goals : List Goal}
      {more : List Bindings} {outer : List Frame} {s t : Tally} {events : List Event}
      {result : Except Failure Proof}
      (h : Runs w d (.frames found true [⟨goals, [b]⟩]) s events result t) :
      Runs w d (.frames found cut (⟨.cut :: goals, b :: more⟩ :: outer)) s events result t
  | proved {d : Nat} {found : List Bindings} {cut : Bool} {g : Goal} {b : Bindings}
      {goals : List Goal} {more next : List Bindings} {outer : List Frame} {s t u : Tally}
      {events later : List Event} {result : Except Failure Proof} (hg : g ≠ .cut)
      (hgoal : Runs w d (.goal g b) s events (.ok next) t)
      (hrest : Runs w d (.frames found cut (⟨goals, next⟩ :: ⟨g :: goals, more⟩ :: outer)) t later
        result u) :
      Runs w d (.frames found cut (⟨g :: goals, b :: more⟩ :: outer)) s (events ++ later) result u
  | failed {d : Nat} {found : List Bindings} {cut : Bool} {g : Goal} {b : Bindings}
      {goals : List Goal} {more : List Bindings} {outer : List Frame} {s t : Tally}
      {events : List Event} {f : Failure} (hg : g ≠ .cut)
      (hgoal : Runs w d (.goal g b) s events (.error f) t) :
      Runs w d (.frames found cut (⟨g :: goals, b :: more⟩ :: outer)) s events (.error f) t
  -- goals: steps are checked first, and the depth of a call before the call is reported
  | outOfSteps {d : Nat} {g : Goal} {b : Bindings} {s : Tally}
      (hsteps : w.limits.proofSteps ≤ s.steps) :
      Runs w d (.goal g b) s [.goalTried g (s.steps + 1)]
        (.error (.exhausted .steps w.limits.proofSteps)) { s with steps := s.steps + 1 }
  /-- A goal that is no call is proved in the same way, whatever calls do. -/
  | builtin {d : Nat} {g : Goal} {b : Bindings} {s t : Tally}
      {result : Except Failure (List Bindings)} (hsteps : s.steps < w.limits.proofSteps)
      (hg : ∀ name args, g ≠ .call name args)
      (h : ∀ call, proveWith call g b { s with steps := s.steps + 1 } = (result, t)) :
      Runs w d (.goal g b) s [.goalTried g (s.steps + 1)] result t
  | tooDeep {d : Nat} {name : String} {args : List Term} {b : Bindings} {s : Tally}
      (hsteps : s.steps < w.limits.proofSteps) (hdepth : w.limits.proofDepth ≤ d) :
      Runs w d (.goal (.call name args) b) s
        [.goalTried (.call name args) (s.steps + 1), .callRefused]
        (.error (.exhausted .depth w.limits.proofDepth)) { s with steps := s.steps + 1 }
  | called {d : Nat} {name : String} {args : List Term} {b : Bindings} {s t : Tally}
      {events : List Event} {solutions : List Bindings} (hsteps : s.steps < w.limits.proofSteps)
      (hdepth : d < w.limits.proofDepth)
      (h : Runs w d (.clauses (args.map b.resolveDeep) b (w.database.clauses name))
        { s with
          steps := s.steps + 1
          output := s.output.emitAll (w.entryLines name (args.map b.resolveDeep)) }
        events (.ok solutions) t) :
      Runs w d (.goal (.call name args) b) s (.goalTried (.call name args) (s.steps + 1) :: events)
        (.ok solutions)
        { t with
          output := t.output.emitAll (w.exitLines name (args.map b.resolveDeep) solutions) }
  | callFailed {d : Nat} {name : String} {args : List Term} {b : Bindings} {s t : Tally}
      {events : List Event} {f : Failure} (hsteps : s.steps < w.limits.proofSteps)
      (hdepth : d < w.limits.proofDepth)
      (h : Runs w d (.clauses (args.map b.resolveDeep) b (w.database.clauses name))
        { s with
          steps := s.steps + 1
          output := s.output.emitAll (w.entryLines name (args.map b.resolveDeep)) }
        events (.error f) t) :
      Runs w d (.goal (.call name args) b) s (.goalTried (.call name args) (s.steps + 1) :: events)
        (.error f) t
  -- clauses: a body is proved one level deeper, and a cut in it leaves out the clauses after it
  | noClause {d : Nat} {args : List Term} {b : Bindings} {s : Tally} :
      Runs w d (.clauses args b []) s [] (.ok []) s
  | mismatch {d : Nat} {args : List Term} {b : Bindings} {clause : Clause} {others : List Clause}
      {s t : Tally} {events : List Event} {result : Except Failure (List Bindings)}
      (hhead : clause.unifyHead (s.activations + 1) args b = none)
      (h : Runs w d (.clauses args b others) { s with activations := s.activations + 1 } events
        result t) :
      Runs w d (.clauses args b (clause :: others)) s (.clauseTried d clause :: events) result t
  | unreadable {d : Nat} {args : List Term} {b unified : Bindings} {clause : Clause}
      {others : List Clause} {s : Tally} {f : Failure}
      (hhead : clause.unifyHead (s.activations + 1) args b = some unified)
      (hbody : instantiate (s.activations + 1) clause.body = .error f) :
      Runs w d (.clauses args b (clause :: others)) s [.clauseTried d clause] (.error f)
        { s with activations := s.activations + 1 }
  | bodyFailed {d : Nat} {args : List Term} {b unified : Bindings} {clause : Clause}
      {others : List Clause} {goals : List Goal} {s t : Tally} {events : List Event} {f : Failure}
      (hhead : clause.unifyHead (s.activations + 1) args b = some unified)
      (hbody : instantiate (s.activations + 1) clause.body = .ok goals)
      (h : Runs w (d + 1) (.frames [] false [⟨goals, [unified]⟩])
        { s with activations := s.activations + 1 } events (.error f) t) :
      Runs w d (.clauses args b (clause :: others)) s (.clauseTried d clause :: events) (.error f) t
  | bodyCut {d : Nat} {args : List Term} {b unified : Bindings} {clause : Clause}
      {others : List Clause} {goals : List Goal} {s t : Tally} {events : List Event} {proof : Proof}
      (hhead : clause.unifyHead (s.activations + 1) args b = some unified)
      (hbody : instantiate (s.activations + 1) clause.body = .ok goals)
      (h : Runs w (d + 1) (.frames [] false [⟨goals, [unified]⟩])
        { s with activations := s.activations + 1 } events (.ok proof) t)
      (hcut : proof.cut = true) :
      Runs w d (.clauses args b (clause :: others)) s (.clauseTried d clause :: events)
        (.ok proof.solutions) t
  | bodyProved {d : Nat} {args : List Term} {b unified : Bindings} {clause : Clause}
      {others : List Clause} {goals : List Goal} {s t u : Tally} {events later : List Event}
      {proof : Proof} {result : Except Failure (List Bindings)}
      (hhead : clause.unifyHead (s.activations + 1) args b = some unified)
      (hbody : instantiate (s.activations + 1) clause.body = .ok goals)
      (h : Runs w (d + 1) (.frames [] false [⟨goals, [unified]⟩])
        { s with activations := s.activations + 1 } events (.ok proof) t)
      (hcut : proof.cut = false)
      (hrest : Runs w d (.clauses args b others) t later result u) :
      Runs w d (.clauses args b (clause :: others)) s (.clauseTried d clause :: (events ++ later))
        (result.map (proof.solutions ++ ·)) u

/-! ## A run ends as the search does -/

/-- The search for a task at this depth. -/
def Task.search (w : Setting) (d : Nat) : {α : Type} → Task α → Search α
  | _, .frames found cut pending =>
    walk (w.prover (w.limits.proofDepth - d)) w.limits.proofSteps found cut pending
  | _, .goal g b => (w.prover (w.limits.proofDepth - d)).attempt w.limits.proofSteps g b
  | _, .clauses args b left => w.tryClauses (w.prover (w.limits.proofDepth - (d + 1))) args b left

variable {w : Setting} {α : Type} {d : Nat} {task : Task α} {s t : Tally} {events : List Event}
  {result : Except Failure α}

/-- A goal that is tried takes one step. -/
theorem attempt_of_lt {p : Prover} {limit : Nat} {g : Goal} {b : Bindings}
    (h : s.steps < limit) :
    p.attempt limit g b s = p.prove g b { s with steps := s.steps + 1 } := by
  rw [Prover.attempt, if_pos h]

/-- Beyond the last step no goal is tried. -/
theorem attempt_of_le {p : Prover} {limit : Nat} {g : Goal} {b : Bindings}
    (h : limit ≤ s.steps) :
    p.attempt limit g b s =
      (.error (.exhausted .steps limit), { s with steps := s.steps + 1 }) := by
  rw [Prover.attempt, if_neg (Nat.not_lt.2 h)]

theorem activate_apply (s : Tally) :
    Search.activate s =
      (.ok (s.activations + 1), { s with activations := s.activations + 1 }) := rfl

/-- A clause whose head does not match is counted and passed over. -/
theorem tryClauses_of_mismatch {inner : Prover} {args : List Term} {b : Bindings} {clause : Clause}
    (hhead : clause.unifyHead (s.activations + 1) args b = none) (others : List Clause) :
    w.tryClauses inner args b (clause :: others) s =
      w.tryClauses inner args b others { s with activations := s.activations + 1 } := by
  unfold Clause.unifyHead at hhead
  rw [Setting.tryClauses, Search.bind_of_ok (activate_apply s), hhead]

/-- The body of a used clause is proved; a fact is a clause without goals. -/
theorem tryClauses_of_unified {inner : Prover} {args : List Term} {b unified : Bindings}
    {clause : Clause}
    (hhead : clause.unifyHead (s.activations + 1) args b = some unified) (others : List Clause) :
    w.tryClauses inner args b (clause :: others) s =
      (Search.ofExcept (instantiate (s.activations + 1) clause.body) >>= fun goals => do
        let proof ← inner.proveAll w.limits.proofSteps goals unified
        if proof.cut then return proof.solutions
        else do
          let rest ← w.tryClauses inner args b others
          return proof.solutions ++ rest : Search (List Bindings))
        { s with activations := s.activations + 1 } := by
  unfold Clause.unifyHead at hhead
  rw [Setting.tryClauses, Search.bind_of_ok (activate_apply s), hhead]
  cases clause with
  | rule head body => rfl
  | fact head =>
    have hbody : Search.ofExcept (instantiate (s.activations + 1) (Clause.fact head).body) =
        pure [] := rfl
    simp only [hbody, pure_bind, proveAll_eq_depthFirst, depthFirst, Bool.false_eq_true, if_false,
      List.singleton_append]

/-- The body of a clause whose head matches is proved under the unified bindings. -/
theorem tryClauses_of_body {inner : Prover} {args : List Term} {b unified : Bindings}
    {clause : Clause} {goals : List Goal}
    (hhead : clause.unifyHead (s.activations + 1) args b = some unified)
    (hbody : instantiate (s.activations + 1) clause.body = .ok goals) (others : List Clause) :
    w.tryClauses inner args b (clause :: others) s =
      (inner.proveAll w.limits.proofSteps goals unified >>= fun proof =>
        if proof.cut then return proof.solutions
        else do
          let rest ← w.tryClauses inner args b others
          return proof.solutions ++ rest : Search (List Bindings))
        { s with activations := s.activations + 1 } := by
  rw [tryClauses_of_unified hhead, hbody]
  rfl

/-- A call tries the clauses of its predicate and reports how it is entered and left. -/
theorem call_eq (inner : Prover) (name : String) (args : List Term) (b : Bindings) (s : Tally) :
    w.call inner name args b s =
      (w.tryClauses inner (args.map b.resolveDeep) b (w.database.clauses name) >>= fun solutions =>
        (Search.emitAll (w.exitLines name (args.map b.resolveDeep) solutions) >>= fun _ =>
          pure solutions) : Search (List Bindings))
        { s with output := s.output.emitAll (w.entryLines name (args.map b.resolveDeep)) } := rfl

/-- The bindings that come from a goal go to the next frame. -/
theorem walk_of_ok {p : Prover} {limit : Nat} {g : Goal} {b : Bindings} {next : List Bindings}
    (hg : g ≠ .cut) (h : p.attempt limit g b s = (.ok next, t)) (found : List Bindings) (cut : Bool)
    (goals : List Goal) (more : List Bindings) (outer : List Frame) :
    walk p limit found cut (⟨g :: goals, b :: more⟩ :: outer) s =
      walk p limit found cut (⟨goals, next⟩ :: ⟨g :: goals, more⟩ :: outer) t := by
  rw [walk]
  · split
    next htried =>
      cases h.symm.trans htried
      rfl
    next htried => cases h.symm.trans htried
  · exact hg

/-- A failure of a goal ends the walk. -/
theorem walk_of_error {p : Prover} {limit : Nat} {g : Goal} {b : Bindings} {f : Failure}
    (hg : g ≠ .cut) (h : p.attempt limit g b s = (.error f, t)) (found : List Bindings)
    (cut : Bool) (goals : List Goal) (more : List Bindings) (outer : List Frame) :
    walk p limit found cut (⟨g :: goals, b :: more⟩ :: outer) s = (.error f, t) := by
  rw [walk]
  · split
    next htried => cases h.symm.trans htried
    next htried =>
      cases h.symm.trans htried
      rfl
  · exact hg

/-- A goal that is no call is settled in the step that tries it. -/
theorem attempt_builtin {limit : Nat} {g : Goal} {b : Bindings} {result : Except Failure _}
    (hsteps : s.steps < limit)
    (h : ∀ call, proveWith call g b { s with steps := s.steps + 1 } = (result, t)) (n : Nat) :
    (w.prover n).attempt limit g b s = (result, t) := by
  rw [attempt_of_lt hsteps]
  cases n with
  | zero => exact h fun _ _ _ => Search.fail (.exhausted .depth w.limits.proofDepth)
  | succ n => exact h fun name args b => w.call (w.prover n) name args b

/-- A call within the depth limit is proved one level further in. -/
theorem attempt_call {limit : Nat} (name : String) (args : List Term) (b : Bindings)
    (hsteps : s.steps < limit) (hdepth : d < w.limits.proofDepth) :
    (w.prover (w.limits.proofDepth - d)).attempt limit (.call name args) b s =
      w.call (w.prover (w.limits.proofDepth - (d + 1))) name args b
        { s with steps := s.steps + 1 } := by
  have hleft : w.limits.proofDepth - d = w.limits.proofDepth - (d + 1) + 1 := by omega
  rw [attempt_of_lt hsteps, hleft]
  rfl

/-- The rules and the search agree on the result and on the tally. -/
theorem Runs.search_eq (h : Runs w d task s events result t) :
    task.search w d s = (result, t) := by
  induction h with
  | done => simp only [Task.search, walk]
  | leave _ ih =>
    simp only [Task.search] at ih ⊢
    rw [walk, ih]
  | found _ ih =>
    simp only [Task.search] at ih ⊢
    rw [walk, ih]
  | cut _ ih =>
    simp only [Task.search] at ih ⊢
    rw [walk, ih]
  | proved hg _ _ ihgoal ihrest =>
    simp only [Task.search] at ihgoal ihrest ⊢
    rw [walk_of_ok hg ihgoal, ihrest]
  | failed hg _ ih =>
    simp only [Task.search] at ih ⊢
    rw [walk_of_error hg ih]
  | outOfSteps hsteps => exact attempt_of_le hsteps
  | builtin hsteps _ hproved => exact attempt_builtin hsteps hproved _
  | tooDeep hsteps hdepth =>
    simp only [Task.search]
    rw [attempt_of_lt hsteps, Nat.sub_eq_zero_of_le hdepth]
    rfl
  | called hsteps hdepth _ ih =>
    simp only [Task.search] at ih ⊢
    rw [attempt_call _ _ _ hsteps hdepth, call_eq, Search.bind_of_ok ih]
    rfl
  | callFailed hsteps hdepth _ ih =>
    simp only [Task.search] at ih ⊢
    rw [attempt_call _ _ _ hsteps hdepth, call_eq, Search.bind_of_error ih]
  | noClause => rfl
  | mismatch hhead _ ih =>
    simp only [Task.search] at ih ⊢
    rw [tryClauses_of_mismatch hhead, ih]
  | unreadable hhead hbody =>
    simp only [Task.search]
    rw [tryClauses_of_unified hhead, hbody]
    rfl
  | bodyFailed hhead hbody _ ih =>
    simp only [Task.search] at ih ⊢
    rw [tryClauses_of_body hhead hbody]
    exact Search.bind_of_error ih
  | bodyCut hhead hbody _ hcut ih =>
    simp only [Task.search] at ih ⊢
    rw [tryClauses_of_body hhead hbody]
    refine (Search.bind_of_ok ih).trans ?_
    rw [if_pos hcut]
    rfl
  | @bodyProved _ _ _ _ _ _ _ _ _ _ _ _ _ result hhead hbody _ hcut _ ih ihrest =>
    simp only [Task.search] at ih ihrest ⊢
    rw [tryClauses_of_body hhead hbody]
    refine (Search.bind_of_ok ih).trans ?_
    rw [if_neg (by simp [hcut])]
    cases result with
    | ok rest => exact Search.bind_of_ok ihrest
    | error f => exact Search.bind_of_error ihrest

/-! ## Every search has a run -/

/-- The task has a run from this tally. -/
def Task.Ends (w : Setting) (d : Nat) (task : Task α) (s : Tally) : Prop :=
  ∃ events result t, Runs w d task s events result t

theorem proveWith_congr {call call' : String → List Term → Bindings → Search (List Bindings)}
    {g : Goal} (hg : ∀ name args, g ≠ .call name args) (b : Bindings) :
    proveWith call g b = proveWith call' g b := by
  cases g with
  | call name args => exact absurd rfl (hg name args)
  | _ => rfl

/-- The search succeeds and changes nothing but the emitted lines. -/
def Search.OnlyEmits (x : Search α) : Prop :=
  ∀ s : Tally, ∃ a output, x s = (.ok a, { s with output })

/-- A goal that is no call counts nothing. -/
theorem onlyEmits_proveWith {call : String → List Term → Bindings → Search (List Bindings)}
    {g : Goal} (hg : ∀ name args, g ≠ .call name args) (b : Bindings) :
    (proveWith call g b).OnlyEmits := by
  have hpure : ∀ found : List Bindings, (pure found : Search (List Bindings)).OnlyEmits :=
    fun _ _ => ⟨_, _, rfl⟩
  have hfailure : ∀ e, (arithmeticFailure e).OnlyEmits := fun _ _ => ⟨_, _, rfl⟩
  cases g with
  | succeed | fail | cut | unify | notUnify => exact hpure _
  | newline | write => exact fun _ => ⟨_, _, rfl⟩
  | member element list =>
    simp only [proveWith]
    split <;> exact hpure _
  | is target e =>
    simp only [proveWith]
    split
    · exact hpure _
    · exact hfailure _
  | compare c left right =>
    simp only [proveWith]
    split
    · exact hpure _
    · exact hfailure _
  | call name args => exact absurd rfl (hg name args)

/-- If every goal ends at this depth, so does every list of frames: each goal takes a step, and
between two steps the frames get fewer or smaller. -/
theorem ends_frames (hgoal : ∀ g b s, (Task.goal g b).Ends w d s) (found : List Bindings)
    (cut : Bool) (pending : List Frame) (s : Tally) : (Task.frames found cut pending).Ends w d s := by
  fun_induction walk (w.prover (w.limits.proofDepth - d)) w.limits.proofSteps found cut pending s with
  | case1 => exact ⟨_, _, _, .done⟩
  | case2 found cut s goals outer ih =>
    obtain ⟨events, result, t, h⟩ := ih
    exact ⟨_, _, _, .leave h⟩
  | case3 found cut s b more outer ih =>
    obtain ⟨events, result, t, h⟩ := ih
    exact ⟨_, _, _, .found h⟩
  | case4 found cut s goals b more outer ih =>
    obtain ⟨events, result, t, h⟩ := ih
    exact ⟨_, _, _, .cut h⟩
  | case5 found cut s g goals b more outer hg next t tried ih =>
    obtain ⟨events, result, t', h⟩ := hgoal g b s
    cases tried.symm.trans h.search_eq
    obtain ⟨later, final, u, hrest⟩ := ih
    exact ⟨_, _, _, .proved hg h hrest⟩
  | case6 found cut s g goals b more outer hg f t tried =>
    obtain ⟨events, result, t', h⟩ := hgoal g b s
    cases tried.symm.trans h.search_eq
    exact ⟨_, _, _, .failed hg h⟩

/-- If every body ends one level deeper, so does every list of clauses. -/
theorem ends_clauses
    (hbodies : ∀ goals b s, (Task.frames [] false [⟨goals, [b]⟩]).Ends w (d + 1) s)
    (args : List Term) (b : Bindings) (left : List Clause) (s : Tally) :
    (Task.clauses args b left).Ends w d s := by
  induction left generalizing s with
  | nil => exact ⟨_, _, _, .noClause⟩
  | cons clause others ih =>
    cases hhead : clause.unifyHead (s.activations + 1) args b with
    | none =>
      obtain ⟨events, result, t, h⟩ := ih { s with activations := s.activations + 1 }
      exact ⟨_, _, _, .mismatch hhead h⟩
    | some unified =>
      cases hbody : instantiate (s.activations + 1) clause.body with
      | error f => exact ⟨_, _, _, .unreadable hhead hbody⟩
      | ok goals =>
        obtain ⟨events, result, t, h⟩ :=
          hbodies goals unified { s with activations := s.activations + 1 }
        cases result with
        | error f => exact ⟨_, _, _, .bodyFailed hhead hbody h⟩
        | ok proof =>
          cases hcut : proof.cut with
          | true => exact ⟨_, _, _, .bodyCut hhead hbody h hcut⟩
          | false =>
            obtain ⟨later, final, u, hrest⟩ := ih t
            exact ⟨_, _, _, .bodyProved hhead hbody h hcut hrest⟩

/-- A goal ends if a call at this depth is refused or its clauses end. -/
theorem ends_goal_of_clauses
    (hclauses : d < w.limits.proofDepth → ∀ args b left s, (Task.clauses args b left).Ends w d s)
    (g : Goal) (b : Bindings) (s : Tally) : (Task.goal g b).Ends w d s := by
  by_cases hsteps : s.steps < w.limits.proofSteps
  · by_cases hg : ∃ name args, g = .call name args
    · obtain ⟨name, args, rfl⟩ := hg
      by_cases hdepth : d < w.limits.proofDepth
      · obtain ⟨events, result, t, h⟩ := hclauses hdepth (args.map b.resolveDeep) b
          (w.database.clauses name)
          { s with
            steps := s.steps + 1
            output := s.output.emitAll (w.entryLines name (args.map b.resolveDeep)) }
        cases result with
        | error f => exact ⟨_, _, _, .callFailed hsteps hdepth h⟩
        | ok solutions => exact ⟨_, _, _, .called hsteps hdepth h⟩
      · exact ⟨_, _, _, .tooDeep hsteps (Nat.not_lt.1 hdepth)⟩
    · have hbuiltin : ∀ name args, g ≠ .call name args := fun name args h => hg ⟨name, args, h⟩
      have hsame : ∀ call, proveWith call g b { s with steps := s.steps + 1 } =
          proveWith (fun _ _ _ => pure []) g b { s with steps := s.steps + 1 } :=
        fun call => congrFun (proveWith_congr hbuiltin b) _
      exact ⟨_, _, _, .builtin hsteps hbuiltin hsame⟩
  · exact ⟨_, _, _, .outOfSteps (Nat.not_lt.1 hsteps)⟩

/-- Every goal ends, whatever the clauses are. -/
theorem ends_goal (w : Setting) (d : Nat) (g : Goal) (b : Bindings) (s : Tally) :
    (Task.goal g b).Ends w d s := by
  -- induction on the depth that is left for calls
  induction hleft : w.limits.proofDepth - d generalizing d g b s with
  | zero =>
    refine ends_goal_of_clauses (fun hdepth => ?_) g b s
    omega
  | succ n ih =>
    have hdeeper : ∀ g b s, (Task.goal g b).Ends w (d + 1) s :=
      fun g b s => ih (d + 1) g b s (by omega)
    have hbodies : ∀ goals b s, (Task.frames [] false [⟨goals, [b]⟩]).Ends w (d + 1) s :=
      fun goals b s => ends_frames hdeeper [] false [⟨goals, [b]⟩] s
    exact ends_goal_of_clauses (fun _ => ends_clauses hbodies) g b s

/-! ## Steps and uses of clauses are events -/

/-- The number of the step, if the event is one. -/
def Event.step? : Event → Option Nat
  | .goalTried _ n => some n
  | _ => none

/-- Whether a clause is tried. -/
def Event.isUse : Event → Bool
  | .clauseTried .. => true
  | _ => false

/-- Steps are numbered from the tally on, without a gap. -/
theorem Runs.steps_eq (h : Runs w d task s events result t) :
    ∃ n, t.steps = s.steps + n ∧ events.filterMap Event.step? = List.range' (s.steps + 1) n := by
  induction h with
  | done | noClause | unreadable => exact ⟨0, rfl, rfl⟩
  | leave _ ih | found _ ih | cut _ ih | failed _ _ ih => exact ih
  | mismatch _ _ ih | bodyFailed _ _ _ ih | bodyCut _ _ _ _ ih => exact ih
  | outOfSteps | tooDeep => exact ⟨1, rfl, rfl⟩
  | builtin _ hg h =>
    obtain ⟨found, output, hproved⟩ := onlyEmits_proveWith hg _ _
    cases hproved.symm.trans (h fun _ _ _ => pure [])
    exact ⟨1, rfl, rfl⟩
  | called _ _ _ ih | callFailed _ _ _ ih =>
    obtain ⟨n, hn, hevents⟩ := ih
    refine ⟨n + 1, ?_, ?_⟩
    · dsimp only at hn ⊢
      omega
    · rw [List.range'_succ, ← hevents]
      rfl
  | @proved d found cut g b goals more next outer s t u events later result _ _ _ ihgoal ihrest =>
    obtain ⟨n, hn, hevents⟩ := ihgoal
    obtain ⟨m, hm, hlater⟩ := ihrest
    refine ⟨n + m, by omega, ?_⟩
    have hnext : t.steps + 1 = s.steps + 1 + n := by omega
    rw [List.filterMap_append, hevents, hlater, hnext, List.range'_append_1]
  | @bodyProved d args b unified clause others goals s t u events later proof result _ _ _ _ _ ih
      ihrest =>
    obtain ⟨n, hn, hevents⟩ := ih
    obtain ⟨m, hm, hlater⟩ := ihrest
    dsimp only at hn hevents
    refine ⟨n + m, by omega, ?_⟩
    have hnext : t.steps + 1 = s.steps + 1 + n := by omega
    rw [List.filterMap_cons_none rfl, List.filterMap_append, hevents, hlater, hnext,
      List.range'_append_1]

/-- Every use of a clause is counted. -/
theorem Runs.activations_eq (h : Runs w d task s events result t) :
    t.activations = s.activations + events.countP Event.isUse := by
  induction h with
  | done | noClause | unreadable | outOfSteps | tooDeep => rfl
  | leave _ ih | found _ ih | cut _ ih | failed _ _ ih => exact ih
  | called _ _ _ ih | callFailed _ _ _ ih => exact ih
  | builtin _ hg h =>
    obtain ⟨found, output, hproved⟩ := onlyEmits_proveWith hg _ _
    cases hproved.symm.trans (h fun _ _ _ => pure [])
    rfl
  | proved _ _ _ ihgoal ihrest => rw [List.countP_append, ihrest, ihgoal, Nat.add_assoc]
  | mismatch _ _ ih | bodyFailed _ _ _ ih | bodyCut _ _ _ _ ih =>
    rw [List.countP_cons_of_pos rfl, ih]
    dsimp only
    omega
  | bodyProved _ _ _ _ _ ih ihrest =>
    rw [List.countP_cons_of_pos rfl, List.countP_append, ihrest, ih]
    dsimp only
    omega

end StackLogic.Horn
