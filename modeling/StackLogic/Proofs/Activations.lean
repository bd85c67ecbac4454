import StackLogic.Proofs.QueryBounds
import StackLogic.Proofs.Renaming

/-!
# Used clauses have new variables

Each use of a clause in a search renames the variables of the clause by the number of the use. The
stages of a search are all moments between its start and its end, those inside of nested calls
included: `Stage.Next` leads from one to the next, over a part that is proved as a whole or into it.
Each stage is a part of the run of the search (`Stage.Reached.within`), and every use that is counted
is a stage (`Runs.exists_use`).

At every stage all variables are issued: they belong to no later use (`Stage.Next.issued`). So the
variables of a used clause are apart from all others at that stage.
-/

namespace StackLogic.Horn

open Bindings Relation

/-! ## Stages of a search -/

/-- A moment of a search: what is done next at some depth of calls, the frames of the goal lists
around it, whose calls are not finished, and what was counted and emitted so far. -/
inductive Stage where
  /-- Frames are worked through. -/
  | frames (depth : Nat) (found : List Bindings) (cut : Bool) (pending : List Frame)
    (outside : List Frame) (tally : Tally)
  /-- A goal is tried. -/
  | goal (depth : Nat) (g : Goal) (b : Bindings) (outside : List Frame) (tally : Tally)
  /-- Clauses are tried for a call. -/
  | clauses (depth : Nat) (args : List Term) (b : Bindings) (left : List Clause)
    (outside : List Frame) (tally : Tally)

/-- The stage at which the task is done. -/
def Task.stage (d : Nat) (outside : List Frame) (s : Tally) : {α : Type} → Task α → Stage
  | _, .frames found cut pending => .frames d found cut pending outside s
  | _, .goal g b => .goal d g b outside s
  | _, .clauses args b left => .clauses d args b left outside s

/-- A call is about to use a clause. -/
structure Use where
  /-- How many calls are around this one. -/
  depth : Nat
  /-- The arguments of the call, with all bound variables replaced. -/
  args : List Term
  /-- The bindings of the call. -/
  bindings : Bindings
  /-- The clause that is used. -/
  clause : Clause
  /-- The clauses after it. -/
  others : List Clause
  /-- The frames of the goal list with the call and of those around it. -/
  outside : List Frame
  /-- What was counted and emitted before. -/
  before : Tally

namespace Use

/-- The moment before the clause is tried. -/
def stage (u : Use) : Stage :=
  .clauses u.depth u.args u.bindings (u.clause :: u.others) u.outside u.before

/-- The number of the use. -/
def number (u : Use) : Nat := u.before.activations + 1

/-- The head of the clause, renamed. -/
def head (u : Use) : List Term := Term.renameAll (Term.freshName u.number) u.clause.args

/-- The body of the clause, renamed. -/
def body (u : Use) : Except Failure (List Goal) := instantiate u.number u.clause.body

/-- What is counted and emitted when the use itself is counted. -/
def counted (u : Use) : Tally := { u.before with activations := u.number }

/-- How the goals of the body are proved. -/
def inner (w : Setting) (u : Use) : Prover := w.prover (w.limits.proofDepth - (u.depth + 1))

end Use

namespace Stage

/-- From a stage to the next one. A part of the search is passed as a whole, if it succeeds, or its
own stages come next. -/
inductive Next (w : Setting) : Stage → Stage → Prop where
  /-- A frame without alternatives is left. -/
  | leave {d : Nat} {found : List Bindings} {cut : Bool} {goals : List Goal}
      {outer outside : List Frame} {s : Tally} :
      Next w (.frames d found cut (⟨goals, []⟩ :: outer) outside s)
        (.frames d found cut outer outside s)
  /-- An alternative without goals is a solution. -/
  | found {d : Nat} {found : List Bindings} {cut : Bool} {b : Bindings} {more : List Bindings}
      {outer outside : List Frame} {s : Tally} :
      Next w (.frames d found cut (⟨[], b :: more⟩ :: outer) outside s)
        (.frames d (b :: found) cut (⟨[], more⟩ :: outer) outside s)
  /-- A cut drops all other alternatives of its goal list. -/
  | cut {d : Nat} {found : List Bindings} {cut : Bool} {goals : List Goal} {b : Bindings}
      {more : List Bindings} {outer outside : List Frame} {s : Tally} :
      Next w (.frames d found cut (⟨.cut :: goals, b :: more⟩ :: outer) outside s)
        (.frames d found true [⟨goals, [b]⟩] outside s)
  /-- The first goal is tried. -/
  | tried {d : Nat} {found : List Bindings} {cut : Bool} {g : Goal} {goals : List Goal}
      {b : Bindings} {more : List Bindings} {outer outside : List Frame} {s : Tally}
      (hg : g ≠ .cut) :
      Next w (.frames d found cut (⟨g :: goals, b :: more⟩ :: outer) outside s)
        (.goal d g b (⟨g :: goals, b :: more⟩ :: outer ++ outside) s)
  /-- The first goal was tried, and its alternatives are next. -/
  | proved {d : Nat} {found : List Bindings} {cut : Bool} {g : Goal} {goals : List Goal}
      {b : Bindings} {more next : List Bindings} {outer outside : List Frame} {s t : Tally}
      {events : List Event} (hg : g ≠ .cut) (hgoal : Runs w d (.goal g b) s events (.ok next) t) :
      Next w (.frames d found cut (⟨g :: goals, b :: more⟩ :: outer) outside s)
        (.frames d found cut (⟨goals, next⟩ :: ⟨g :: goals, more⟩ :: outer) outside t)
  /-- A predicate is called. -/
  | called {d : Nat} {name : String} {args : List Term} {b : Bindings} {outside : List Frame}
      {s : Tally} (hsteps : s.steps < w.limits.proofSteps) (hdepth : d < w.limits.proofDepth) :
      Next w (.goal d (.call name args) b outside s)
        (.clauses d (args.map b.resolveDeep) b (w.database.clauses name) outside
          { s with
            steps := s.steps + 1
            output := s.output.emitAll (w.entryLines name (args.map b.resolveDeep)) })
  /-- A clause is used whose head does not match. -/
  | mismatch {d : Nat} {args : List Term} {b : Bindings} {clause : Clause} {others : List Clause}
      {outside : List Frame} {s : Tally}
      (hhead : clause.unifyHead (s.activations + 1) args b = none) :
      Next w (.clauses d args b (clause :: others) outside s)
        (.clauses d args b others outside { s with activations := s.activations + 1 })
  /-- A clause is used, and the proof of its body begins. -/
  | body {d : Nat} {args : List Term} {b unified : Bindings} {clause : Clause}
      {others : List Clause} {goals : List Goal} {outside : List Frame} {s : Tally}
      (hhead : clause.unifyHead (s.activations + 1) args b = some unified)
      (hbody : instantiate (s.activations + 1) clause.body = .ok goals) :
      Next w (.clauses d args b (clause :: others) outside s)
        (.frames (d + 1) [] false [⟨goals, [unified]⟩] outside
          { s with activations := s.activations + 1 })
  /-- A clause was used, and its body was proved without a cut. -/
  | bodyProved {d : Nat} {args : List Term} {b unified : Bindings} {clause : Clause}
      {others : List Clause} {goals : List Goal} {outside : List Frame} {s t : Tally}
      {events : List Event} {proof : Proof}
      (hhead : clause.unifyHead (s.activations + 1) args b = some unified)
      (hbody : instantiate (s.activations + 1) clause.body = .ok goals)
      (hproof : Runs w (d + 1) (.frames [] false [⟨goals, [unified]⟩])
        { s with activations := s.activations + 1 } events (.ok proof) t)
      (hcut : proof.cut = false) :
      Next w (.clauses d args b (clause :: others) outside s) (.clauses d args b others outside t)

/-- The start of a search. -/
def start (goals : List Goal) (s : Tally) : Stage := .frames 0 [] false [⟨goals, [.empty]⟩] [] s

/-- The search comes to this stage. -/
def Reached (w : Setting) (goals : List Goal) (s : Tally) : Stage → Prop :=
  ReflTransGen (Next w) (start goals s)

end Stage

variable {w : Setting} {a c d m n k : Nat} {b b' : Bindings} {g : Goal} {goals query : List Goal}
  {args : List Term} {clause : Clause} {others : List Clause} {outside : List Frame}
  {s s₀ t : Tally} {p q : Stage} {u : Use} {events : List Event}

/-! ## Stages are parts of a run -/

/-- What happens from the stage on is a part of these events. -/
def Stage.Within (w : Setting) (events : List Event) (p : Stage) : Prop :=
  ∃ (α : Type) (d : Nat) (task : Task α) (outside : List Frame) (s : Tally) (part : List Event)
    (result : Except Failure α) (t : Tally),
    p = task.stage d outside s ∧ Runs w d task s part result t ∧ part <:+: events

/-- A part of a run starts at a stage within it. -/
theorem Runs.within {α : Type} {task : Task α} {part : List Event} {result : Except Failure α}
    (h : Runs w d task s part result t) (hpart : part <:+: events) :
    (task.stage d outside s).Within w events :=
  ⟨α, d, task, outside, s, part, result, t, rfl, h, hpart⟩

/-- If the head of a clause matches, its body comes next, or it has been proved without a cut. -/
theorem Stage.Next.of_body {unified : Bindings}
    (h : Next w (.clauses d args b (clause :: others) outside s) q)
    (hhead : clause.unifyHead (s.activations + 1) args b = some unified)
    (hbody : instantiate (s.activations + 1) clause.body = .ok goals) :
    q = .frames (d + 1) [] false [⟨goals, [unified]⟩] outside
      { s with activations := s.activations + 1 } ∨
    ∃ events proof t, Runs w (d + 1) (.frames [] false [⟨goals, [unified]⟩])
        { s with activations := s.activations + 1 } events (.ok proof) t ∧
      proof.cut = false ∧ q = .clauses d args b others outside t := by
  cases h with
  | mismatch hnone => cases hhead.symm.trans hnone
  | body hsame hread =>
    cases hhead.symm.trans hsame
    cases hbody.symm.trans hread
    exact .inl rfl
  | bodyProved hsame hread hproof hcut =>
    cases hhead.symm.trans hsame
    cases hbody.symm.trans hread
    exact .inr ⟨_, _, _, hproof, hcut, rfl⟩

/-- A run goes through the next stages. -/
theorem Stage.Next.within (h : p.Next w q) (hp : p.Within w events) : q.Within w events := by
  obtain ⟨α, d, task, outside, s, part, result, t, rfl, hrun, hpart⟩ := hp
  cases hrun with
  | done | noClause => cases h
  | leave hrest | found hrest =>
    cases h
    exact hrest.within hpart
  | cut hrest =>
    cases h with
    | cut => exact hrest.within hpart
    | tried hg | proved hg _ => exact absurd rfl hg
  | proved hg hgoal hrest =>
    cases h with
    | cut => exact absurd rfl hg
    | tried _ => exact hgoal.within ((List.infix_append' [] _ _).trans hpart)
    | proved _ hsame =>
      cases hgoal.search_eq.symm.trans hsame.search_eq
      exact hrest.within ((List.suffix_append _ _).isInfix.trans hpart)
  | failed hg hgoal =>
    cases h with
    | cut => exact absurd rfl hg
    | tried _ => exact hgoal.within hpart
    | proved _ hsame => cases hgoal.search_eq.symm.trans hsame.search_eq
  | outOfSteps hsteps =>
    cases h with
    | called hlt _ => exact absurd hlt (Nat.not_lt.2 hsteps)
  | builtin _ hg _ =>
    cases h with
    | called _ _ => exact absurd rfl (hg _ _)
  | tooDeep _ hdepth =>
    cases h with
    | called _ hlt => exact absurd hlt (Nat.not_lt.2 hdepth)
  | called _ _ hclauses | callFailed _ _ hclauses =>
    cases h with
    | called _ _ => exact hclauses.within ((List.suffix_cons _ _).isInfix.trans hpart)
  | mismatch hhead hrest =>
    cases h with
    | mismatch _ => exact hrest.within ((List.suffix_cons _ _).isInfix.trans hpart)
    | body hunified _ | bodyProved hunified _ _ _ => cases hhead.symm.trans hunified
  | unreadable hhead hbody =>
    cases h with
    | mismatch hnone => cases hhead.symm.trans hnone
    | body hsame hread | bodyProved hsame hread _ _ =>
      cases hbody.symm.trans hread
  | bodyFailed hhead hbody hproof =>
    obtain rfl | ⟨_, proof, _, hproved, _, rfl⟩ := h.of_body hhead hbody
    · exact hproof.within ((List.suffix_cons _ _).isInfix.trans hpart)
    · cases hproof.search_eq.symm.trans hproved.search_eq
  | bodyCut hhead hbody hproof hcut =>
    obtain rfl | ⟨_, proof, _, hproved, hnot, rfl⟩ := h.of_body hhead hbody
    · exact hproof.within ((List.suffix_cons _ _).isInfix.trans hpart)
    · cases hproof.search_eq.symm.trans hproved.search_eq
      cases hcut.symm.trans hnot
  | bodyProved hhead hbody hproof _ hrest =>
    obtain rfl | ⟨_, proof, _, hproved, _, rfl⟩ := h.of_body hhead hbody
    · exact hproof.within (List.IsInfix.trans ⟨[_], _, rfl⟩ hpart)
    · cases hproof.search_eq.symm.trans hproved.search_eq
      have hevents := (List.suffix_cons _ _).isInfix.trans hpart
      exact hrest.within ((List.suffix_append _ _).isInfix.trans hevents)

/-- Every stage of a search is a part of its run. -/
theorem Stage.Reached.within {result : Except Failure Proof} (h : Stage.Reached w query s p)
    (hrun : Runs w 0 (.frames [] false [⟨query, [.empty]⟩]) s events result t) :
    p.Within w events := by
  induction h with
  | refl => exact hrun.within (List.infix_refl _)
  | tail _ hnext ih => exact hnext.within ih

/-- The search tries the clause of the use, with the head and the body that the use has. -/
structure Use.Tried (w : Setting) (events : List Event) (u : Use) : Prop where
  /-- The call may be nested so deep. -/
  depth_lt : u.depth < w.limits.proofDepth
  /-- The arguments are unified with the head under the bindings of the call. If they match, the body
  is proved under the bindings that this gives, and without a cut in it the other clauses follow. -/
  step : w.tryClauses (u.inner w) u.args u.bindings (u.clause :: u.others) u.before =
    match unifyAll u.args u.head u.bindings with
    | none => w.tryClauses (u.inner w) u.args u.bindings u.others u.counted
    | some unified =>
      (Search.ofExcept u.body >>= fun goals => do
        let proof ← (u.inner w).proveAll w.limits.proofSteps goals unified
        if proof.cut then return proof.solutions
        else do
          let rest ← w.tryClauses (u.inner w) u.args u.bindings u.others
          return proof.solutions ++ rest : Search (List Bindings)) u.counted
  /-- It is one of the events, and those of the call from there on follow it. -/
  event : ∃ later result t, .clauseTried u.depth u.clause :: later <:+: events ∧
    Runs w u.depth (.clauses u.args u.bindings (u.clause :: u.others)) u.before
      (.clauseTried u.depth u.clause :: later) result t ∧
    w.tryClauses (u.inner w) u.args u.bindings (u.clause :: u.others) u.before = (result, t)

/-- A run that starts with a use reports the clause first. -/
theorem Runs.exists_clauseTried {α : Type} {task : Task α} {part : List Event}
    {result : Except Failure α} (h : Runs w d task s part result t)
    (hu : u.stage = task.stage d outside s) :
    ∃ later, part = .clauseTried u.depth u.clause :: later := by
  obtain ⟨depth, args, b, clause, others, outside, before⟩ := u
  cases h with
  | mismatch | unreadable | bodyFailed | bodyCut | bodyProved =>
    cases hu
    exact ⟨_, rfl⟩
  | _ => cases hu

/-- A use within the events of a run is one of the clauses that the run tries. -/
theorem Use.tried_of_within (h : u.stage.Within w events) (hevents : ∀ e ∈ events, e.Allowed w) :
    u.Tried w events where
  depth_lt := by
    obtain ⟨α, d, task, outside, s, part, result, t, hstage, hrun, hpart⟩ := h
    obtain ⟨later, rfl⟩ := hrun.exists_clauseTried hstage
    exact hevents _ (hpart.subset List.mem_cons_self)
  step := by
    cases hhead : unifyAll u.args u.head u.bindings with
    | none => exact tryClauses_of_mismatch hhead _
    | some unified => exact tryClauses_of_unified hhead _
  event := by
    obtain ⟨α, d, task, outside, s, part, result, t, hstage, hrun, hpart⟩ := h
    obtain ⟨later, rfl⟩ := hrun.exists_clauseTried hstage
    obtain ⟨depth, args, b, clause, others, outside, before⟩ := u
    cases task with
    | clauses args b left =>
      cases hstage
      exact ⟨later, result, t, hpart, hrun, hrun.search_eq⟩
    | _ => cases hstage

/-! ## Every use is a stage -/

/-- A use with a later number is this one, or it comes after it. -/
theorem Use.exists_number_eq (u : Use) (hu : Stage.Reached w query s₀ u.stage)
    (hk : u.before.activations < k)
    (hlater : u.number < k → ∃ u' : Use, Stage.Reached w query s₀ u'.stage ∧ u'.number = k) :
    ∃ u' : Use, Stage.Reached w query s₀ u'.stage ∧ u'.number = k := by
  rcases Nat.eq_or_lt_of_le (Nat.succ_le_of_lt hk) with heq | hlt
  · exact ⟨u, hu, heq⟩
  · exact hlater hlt

/-- A use that is counted in a run is met at some stage. -/
theorem Runs.exists_use {α : Type} {task : Task α} {result : Except Failure α}
    (h : Runs w d task s events result t)
    (hp : Stage.Reached w query s₀ (task.stage d outside s))
    (hs : s.activations < k) (hk : k ≤ t.activations) :
    ∃ u : Use, Stage.Reached w query s₀ u.stage ∧ u.number = k := by
  induction h generalizing outside with
  | done | noClause | outOfSteps | tooDeep => exact absurd hk (Nat.not_le.2 hs)
  | leave _ ih => exact ih (hp.tail .leave) hs hk
  | found _ ih => exact ih (hp.tail .found) hs hk
  | cut _ ih => exact ih (hp.tail .cut) hs hk
  | @proved _ _ _ _ _ _ _ _ _ _ t _ _ _ _ hg hgoal _ ihgoal ihrest =>
    by_cases hfirst : k ≤ t.activations
    · exact ihgoal (hp.tail (.tried hg)) hs hfirst
    · exact ihrest (hp.tail (.proved hg hgoal)) (Nat.not_le.1 hfirst) hk
  | failed hg _ ih => exact ih (hp.tail (.tried hg)) hs hk
  | @builtin d g b s t result hsteps hg h =>
    -- only calls use clauses
    have hnone := (Runs.builtin (d := d) hsteps hg h).activations_eq
    rw [hnone] at hk
    exact absurd hk (Nat.not_le.2 hs)
  | called hsteps hdepth _ ih | callFailed hsteps hdepth _ ih =>
    exact ih (hp.tail (.called hsteps hdepth)) hs hk
  | @mismatch d args b clause others s _ _ _ hhead _ ih =>
    exact Use.exists_number_eq ⟨d, args, b, clause, others, outside, s⟩ hp hs fun hlt =>
      ih (hp.tail (.mismatch hhead)) hlt hk
  | @unreadable d args b _ clause others s =>
    exact Use.exists_number_eq ⟨d, args, b, clause, others, outside, s⟩ hp hs fun hlt =>
      absurd hk (Nat.not_le.2 hlt)
  | @bodyFailed d args b _ clause others _ s _ _ _ hhead hbody _ ih
  | @bodyCut d args b _ clause others _ s _ _ _ hhead hbody _ _ ih =>
    exact Use.exists_number_eq ⟨d, args, b, clause, others, outside, s⟩ hp hs fun hlt =>
      ih (hp.tail (.body hhead hbody)) hlt hk
  | @bodyProved d args b _ clause others _ s t _ _ _ _ _ hhead hbody hproof hcut _ ih ihrest =>
    refine Use.exists_number_eq ⟨d, args, b, clause, others, outside, s⟩ hp hs fun hlt => ?_
    by_cases hfirst : k ≤ t.activations
    · exact ih (hp.tail (.body hhead hbody)) hlt hfirst
    · exact ihrest (hp.tail (.bodyProved hhead hbody hproof hcut)) (Nat.not_le.1 hfirst) hk

/-! ## All variables are issued -/

/-- All variables in the goals and alternatives of the frame belong to the first `a` uses or to no
use. -/
structure Frame.Issued (a : Nat) (f : Frame) : Prop where
  goals : ∀ g ∈ f.goals, g.Over (IssuedName a)
  alternatives : ∀ b ∈ f.alternatives, b.WellFormed ∧ b.All (Term.Issued a)

/-- All variables at the stage belong to uses that were counted or to no use. -/
def Stage.Issued : Stage → Prop
  | .frames _ _ _ pending outside s => ∀ f ∈ pending ++ outside, f.Issued s.activations
  | .goal _ g b outside s =>
    g.Over (IssuedName s.activations) ∧ (b.WellFormed ∧ b.All (Term.Issued s.activations)) ∧
      ∀ f ∈ outside, f.Issued s.activations
  | .clauses _ args b _ outside s =>
    (∀ t ∈ args, t.Issued s.activations) ∧
      (b.WellFormed ∧ b.All (Term.Issued s.activations)) ∧ ∀ f ∈ outside, f.Issued s.activations

theorem Goal.Over.mono {N M : String → Prop} (h : g.Over N) (hNM : ∀ x, N x → M x) : g.Over M :=
  ⟨fun t ht x hx => hNM x (h.terms t ht x hx), fun e he x hx => hNM x (h.exprs e he x hx)⟩

theorem Bindings.All.mono_issued (h : b.All (Term.Issued a)) (hac : a ≤ c) :
    b.All (Term.Issued c) :=
  fun x t hx => ⟨(h x t hx).1.mono hac, (h x t hx).2.mono hac⟩

theorem Frame.Issued.mono {f : Frame} (h : f.Issued a) (hac : a ≤ c) : f.Issued c where
  goals g hg := (h.goals g hg).mono fun _ hx => hx.mono hac
  alternatives b hb := ⟨(h.alternatives b hb).1, (h.alternatives b hb).2.mono_issued hac⟩

/-- The goals of a used clause. -/
theorem issued_of_instantiate {body : List BodyGoal} (h : instantiate k body = .ok goals)
    (hk : k ≤ a) : ∀ g ∈ goals, g.Over (IssuedName a) := by
  obtain ⟨read, _, rfl⟩ := exists_read_of_instantiate h
  refine List.forall_mem_map.2 fun g _ => ⟨?_, ?_⟩
  · rw [Goal.terms_rename]
    exact List.forall_mem_map.2 fun t _ => t.issued_rename hk
  · rw [Goal.exprs_rename]
    refine List.forall_mem_map.2 fun e _ x hx => ?_
    obtain ⟨y, _, rfl⟩ := e.mem_variableNames_rename.1 hx
    exact issuedName_freshName.2 hk

/-- Renaming with an activation gives variables that are issued with it. -/
theorem issued_renameAll (ts : List Term) (hk : k ≤ a) :
    ∀ t ∈ Term.renameAll (Term.freshName k) ts, t.Issued a := by
  rw [Term.renameAll_eq_map]
  exact List.forall_mem_map.2 fun t _ => t.issued_rename hk

/-- Whatever the goals are, a search keeps variables issued. -/
theorem kept_issued (d : Database) (m : Nat) : Kept d (fun _ => True) (Term.Issued m) m where
  element := (inherited_issued m).element
  resolved hb ht := (inherited_issued m).resolveDeep hb ht
  number _ n x hx := by simp at hx
  head {_ clause _} _ hk := issued_renameAll clause.args hk
  body _ hk hi g hg := ⟨trivial, (issued_of_instantiate hi hk g hg).terms⟩

/-- Answers bind terms whose variables are issued, and so does the whole search. -/
theorem Answers.issued {d : Database} (h : Answers d m goals b b')
    (hg : ∀ g ∈ goals, g.Over (IssuedName m)) (hw : b.WellFormed) (hb : b.All (Term.Issued m)) :
    b'.WellFormed ∧ b'.All (Term.Issued m) :=
  ⟨(h.wellFormed hw).1, h.all (kept_issued d m) (fun g hmem => ⟨trivial, (hg g hmem).terms⟩) hw hb⟩

/-- A run keeps what is issued. -/
theorem Runs.issued_frames {α : Type} {task : Task α} {result : Except Failure α}
    {fs : List Frame} (h : Runs w d task s events result t)
    (hfs : ∀ f ∈ fs, f.Issued s.activations) : ∀ f ∈ fs, f.Issued t.activations := by
  have hle : s.activations ≤ t.activations := by
    rw [h.activations_eq]
    exact Nat.le_add_right _ _
  exact fun f hf => (hfs f hf).mono hle

namespace Stage

/-- What is issued before some clauses are tried is issued before the clauses after them. -/
theorem Issued.later {left : List Clause} (h : (Stage.clauses d args b left outside s).Issued)
    (hle : s.activations ≤ t.activations) (others : List Clause) :
    (Stage.clauses d args b others outside t).Issued := by
  obtain ⟨hargs, ⟨hwell, hb⟩, hrest⟩ := h
  exact ⟨fun t ht => (hargs t ht).mono hle, ⟨hwell, hb.mono_issued hle⟩,
    fun f hf => (hrest f hf).mono hle⟩

/-- Every step of a search keeps the variables issued. -/
theorem Next.issued (h : p.Next w q) (hp : p.Issued) : q.Issued := by
  cases h with
  | leave => exact fun f hf => hp f (List.mem_cons_of_mem _ hf)
  | found =>
    obtain ⟨hfirst, hrest⟩ := List.forall_mem_cons.1 hp
    refine List.forall_mem_cons.2 ⟨⟨hfirst.goals, fun b' hb' => ?_⟩, hrest⟩
    exact hfirst.alternatives b' (List.mem_cons_of_mem _ hb')
  | @cut d found cut goals b more outer outside s =>
    obtain ⟨hfirst, hrest⟩ := List.forall_mem_cons.1 hp
    refine List.forall_mem_cons.2 ⟨⟨?_, ?_⟩, fun f hf => hrest f (List.mem_append_right _ hf)⟩
    · exact fun g hg => hfirst.goals g (List.mem_cons_of_mem _ hg)
    · exact List.forall_mem_singleton.2 (hfirst.alternatives b List.mem_cons_self)
  | @tried d found cut g goals b more outer outside s _ =>
    obtain ⟨hfirst, -⟩ := List.forall_mem_cons.1 hp
    exact ⟨hfirst.goals g List.mem_cons_self, hfirst.alternatives b List.mem_cons_self, hp⟩
  | @proved d found cut g goals b more next outer outside s t events _ hgoal =>
    -- proving the goal counts uses, so what was issued before is issued after it
    obtain ⟨hlater, hrest⟩ := List.forall_mem_cons.1 (hgoal.issued_frames hp)
    obtain ⟨-, hanswers⟩ := (answering_prover w _).attempt _ hgoal.search_eq
    obtain ⟨hg, hgoals⟩ := List.forall_mem_cons.1 hlater.goals
    obtain ⟨⟨hwell, hb⟩, hmore⟩ := List.forall_mem_cons.1 hlater.alternatives
    refine List.forall_mem_cons.2 ⟨⟨hgoals, fun b' hb' => ?_⟩, List.forall_mem_cons.2 ⟨?_, hrest⟩⟩
    · exact (hanswers b' hb').issued (List.forall_mem_singleton.2 hg) hwell hb
    · exact ⟨hlater.goals, hmore⟩
  | @called d name args b outside s _ _ =>
    obtain ⟨hg, ⟨hwell, hb⟩, hrest⟩ := hp
    refine ⟨List.forall_mem_map.2 fun t ht => ?_, ⟨hwell, hb⟩, hrest⟩
    exact (inherited_issued s.activations).resolveDeep hb (hg.terms t ht)
  | mismatch _ => exact Issued.later hp (Nat.le_succ _) _
  | @body d args b unified clause others goals outside s hhead hbody =>
    have hcounted : s.activations ≤ s.activations + 1 := Nat.le_succ _
    obtain ⟨hargs, ⟨hwell, hb⟩, hrest⟩ :=
      Issued.later (t := { s with activations := s.activations + 1 }) hp hcounted others
    have hunified := (unifying_of_unifyAll hwell hhead).all
      (inherited_issued (s.activations + 1)).element
      ⟨hargs, issued_renameAll clause.args (Nat.le_refl _)⟩ hb rfl
    refine List.forall_mem_cons.2 ⟨⟨issued_of_instantiate hbody (Nat.le_refl _), ?_⟩, hrest⟩
    exact List.forall_mem_singleton.2 ⟨(unifyAll_wellFormed hwell hhead).1, hunified⟩
  | @bodyProved d args b unified clause others goals outside s t events proof _ _ hproof _ =>
    have hle : s.activations ≤ t.activations := by
      have hcounted := hproof.activations_eq
      dsimp only at hcounted
      omega
    exact Issued.later hp hle others

/-- All variables are issued at every stage of the search for a query. -/
theorem Reached.issued (h : Reached w goals s p)
    (hgoals : ∀ g ∈ goals, g.Over fun x => '#' ∉ x.toList) : p.Issued := by
  induction h with
  | refl =>
    refine List.forall_mem_singleton.2 ⟨fun g hg => ?_, List.forall_mem_singleton.2 ?_⟩
    · exact (hgoals g hg).mono fun x hx => issuedName_of_hash_not_mem hx
    · exact ⟨wellFormed_empty, all_empty _⟩
  | tail _ hnext ih => exact hnext.issued ih

end Stage

/-! ## The variables of a used clause -/

/-- The name is a variable of the renamed head or of the renamed body, other than `_`. -/
def Use.Introduces (u : Use) (x : String) : Prop :=
  x ≠ Term.anonymousName ∧
    ((∃ t ∈ u.head, x ∈ t.variableNames) ∨
      ∃ goals, u.body = .ok goals ∧ x ∈ Goal.variablesOf goals)

/-- The variables of the used clause are renamed apart from all variables of the search. -/
structure Use.RenamedApart (query : List Goal) (u : Use) : Prop where
  /-- The new names end in the number of the use. -/
  shape : ∀ x, u.Introduces x → ∃ y, x = Term.freshName u.number y
  /-- They are not in the arguments of the call. -/
  args : ∀ x, u.Introduces x → ∀ t ∈ u.args, x ∉ t.variableNames
  /-- They are neither bound nor in a value. -/
  bindings : ∀ x, u.Introduces x → ¬ u.bindings.Mentions x
  /-- They are not in the goals and pending alternatives of the goal list of the call and of those
  around it. -/
  frames : ∀ x, u.Introduces x → ∀ f ∈ u.outside,
    x ∉ Goal.variablesOf f.goals ∧ ∀ b ∈ f.alternatives, ¬ b.Mentions x
  /-- They are not in the query. -/
  query : ∀ x, u.Introduces x → x ∉ Goal.variablesOf query
  /-- Different variables get different names. -/
  injective : ∀ x y, Term.freshName u.number x = Term.freshName u.number y → x = y
  /-- The head is renamed so. -/
  head : u.head = u.clause.args.map (Term.rename (Term.freshName u.number))
  /-- And so is the body. -/
  body : ∀ goals, u.body = .ok goals → ∃ read : List Goal,
    u.clause.body.map BodyGoal.goal = read.map .ok ∧
      goals = read.map (Goal.rename (Term.freshName u.number))

variable {x : String}

/-- Apart from `_`, a renamed term has fresh names of its activation only. -/
theorem exists_freshName_of_rename {t : Term} (hx : x ∈ (t.rename (Term.freshName k)).variableNames)
    (hne : x ≠ Term.anonymousName) : ∃ y, x = Term.freshName k y := by
  obtain ⟨y, _, rfl⟩ := (Term.mem_variableNames_rename t).1 hx
  unfold Term.renamedName at hne ⊢
  split at hne
  next hy => exact absurd hy hne
  next => exact ⟨y, if_neg ‹_›⟩

theorem Use.Introduces.exists_freshName (h : u.Introduces x) :
    ∃ y, x = Term.freshName u.number y := by
  obtain ⟨hne, ⟨t, ht, hx⟩ | ⟨goals, hbody, hx⟩⟩ := h
  · rw [head, Term.renameAll_eq_map] at ht
    obtain ⟨t, _, rfl⟩ := List.mem_map.1 ht
    exact exists_freshName_of_rename hx hne
  · obtain ⟨read, _, rfl⟩ := exists_read_of_instantiate hbody
    have hall : ∀ y ∈ Goal.variablesOf (read.map (Goal.rename (Term.freshName u.number))),
        y ≠ Term.anonymousName → ∃ z, y = Term.freshName u.number z := by
      refine Goal.forall_mem_variablesOf.2 (List.forall_mem_map.2 fun g _ => ⟨?_, ?_⟩)
      · rw [Goal.terms_rename]
        exact List.forall_mem_map.2 fun t _ y hy hne => exists_freshName_of_rename hy hne
      · rw [Goal.exprs_rename]
        refine List.forall_mem_map.2 fun e _ y hy _ => ?_
        obtain ⟨z, _, rfl⟩ := e.mem_variableNames_rename.1 hy
        exact ⟨z, rfl⟩
    exact hall x hx hne

/-- The names of a use are not among those issued before. -/
theorem Use.Introduces.not_issued (h : u.Introduces x) (ha : a < u.number) : ¬ IssuedName a x := by
  obtain ⟨y, rfl⟩ := h.exists_freshName
  rw [issuedName_freshName]
  exact Nat.not_le.2 ha

/-- Where all variables are issued, the names of the next activation are new. -/
theorem Use.renamedApart (hu : u.stage.Issued)
    (hquery : ∀ g ∈ query, g.Over fun x => '#' ∉ x.toList) : u.RenamedApart query where
  shape x hx := hx.exists_freshName
  args x hx t ht hmem := hx.not_issued (Nat.lt_succ_self _) (hu.1 t ht x hmem)
  bindings x hx hmem := hx.not_issued (Nat.lt_succ_self _) (all_issued.1 hu.2.1.2 x hmem)
  frames x hx f hf := by
    obtain ⟨hgoals, halternatives⟩ := hu.2.2 f hf
    refine ⟨fun hmem => hx.not_issued (Nat.lt_succ_self _) ?_,
      fun b hb hmem => hx.not_issued (Nat.lt_succ_self _) ?_⟩
    · exact Goal.forall_mem_variablesOf.2 hgoals x hmem
    · exact all_issued.1 (halternatives b hb).2 x hmem
  query x hx hmem := by
    refine hx.not_issued (Nat.succ_pos _) (issuedName_of_hash_not_mem ?_)
    exact Goal.forall_mem_variablesOf.2 hquery x hmem
  injective x y h := (Term.freshName_inj h).2
  head := Term.renameAll_eq_map _ _
  body goals h := exists_read_of_instantiate h

/-- Whatever a reasoner has executed before a query, every clause that the search uses is renamed
apart from all variables that the search works with at that stage and from those of the query. With
the head and the body that are so renamed, the search tries the clause. Every use that is counted is
met at some stage. -/
theorem uses_renamedApart (r : Reasoner) {text : String} {query : List Goal}
    (hread : readQuery text = .ok query) :
    (∃ events result t, r.Runs query events result t) ∧
    ∀ events result t, r.Runs query events result t →
      r.search query = (result, t) ∧
      (∀ u : Use, Stage.Reached r.setting query ⟨0, r.activations, r.output⟩ u.stage →
        u.Tried r.setting events ∧ u.RenamedApart query) ∧
      ∀ k, r.activations < k → k ≤ t.activations →
        ∃ u : Use, Stage.Reached r.setting query ⟨0, r.activations, r.output⟩ u.stage ∧
          u.number = k := by
  have hquery := over_of_readQuery hread
  refine ⟨r.exists_runs query, fun events result t hrun => ⟨hrun.search_eq, fun u hu => ?_, ?_⟩⟩
  · exact ⟨Use.tried_of_within (hu.within hrun) (Horn.Runs.allowed hrun trivial),
      Use.renamedApart (hu.issued hquery) hquery⟩
  · exact fun k hlt hle => Runs.exists_use hrun .refl hlt hle

/-- The rule `q(X) :- q(X)`. -/
def endless : Reasoner where
  database := Database.empty.add "q" (.rule [.var "X"] [.callQ])

/-- The rule is used in its own first body, for `q(X#1)`. -/
def endlessInnerUse : Use where
  depth := 1
  args := [.var "X#1"]
  bindings := Bindings.empty.extend "X" (.var "X#1")
  clause := .rule [.var "X"] [.callQ]
  others := []
  outside := [⟨[.call "q" [.var "X#1"]], [Bindings.empty.extend "X" (.var "X#1")]⟩,
    ⟨[.call "q" [.var "X"]], [.empty]⟩]
  before := ⟨2, 1, .empty⟩

/-- In the first body of `q(X) :- q(X)`, the variable of the rule is named `X#2`, while `X` and `X#1`
are in use in the call and in the goal lists around it. -/
theorem uses_renamedApart_inner_call :
    readQuery " q(X)." = .ok [.call "q" [.var "X"]] ∧
    Stage.Reached endless.setting [.call "q" [.var "X"]] ⟨0, 0, .empty⟩ endlessInnerUse.stage ∧
    endlessInnerUse.Introduces "X#2" ∧ endlessInnerUse.bindings.Mentions "X#1" ∧
    ∃ events result t, endless.Runs [.call "q" [.var "X"]] events result t ∧
      endlessInnerUse.Tried endless.setting events ∧
      endlessInnerUse.RenamedApart [.call "q" [.var "X"]] := by
  have hcall : ∀ args, Goal.call "q" args ≠ .cut := by simp
  have hfirst : Stage.Reached endless.setting [.call "q" [.var "X"]] ⟨0, 0, .empty⟩
      (.clauses 0 [.var "X"] .empty [.rule [.var "X"] [.callQ]]
        [⟨[.call "q" [.var "X"]], [.empty]⟩] ⟨1, 0, .empty⟩) :=
    (ReflTransGen.single (.tried (hcall _))).tail (.called (by decide) (by decide))
  have hreached : Stage.Reached endless.setting [.call "q" [.var "X"]] ⟨0, 0, .empty⟩
      endlessInnerUse.stage :=
    ((hfirst.tail (.body rfl rfl)).tail (.tried (hcall _))).tail
      (.called (by decide) (by decide))
  obtain ⟨⟨events, result, t, hrun⟩, huses⟩ := uses_renamedApart endless readQuery_callQ
  obtain ⟨htried, hapart⟩ := (huses events result t hrun).2.1 _ hreached
  refine ⟨readQuery_callQ, hreached, ?_, ?_, events, result, t, hrun, htried, hapart⟩
  · exact ⟨by decide, Or.inl ⟨.var "X#2", List.mem_singleton.2 rfl, by simp⟩⟩
  · exact ⟨"X", .var "X#1", rfl, Or.inr (by simp)⟩

end StackLogic.Horn
