import StackLogic.Horn.Search
import Mathlib.Data.List.Basic

/-!
# Depth-first search as a recursion

`depthFirst` proves a list of goals by recursion on the list: each alternative of the first goal is
tried with the rest, in order, and the search ends after an alternative under which a cut was met.
`walk` does the same with a list of frames. The two agree in everything: the solutions with their
order, the cut flag, a failure, the counters and the emitted lines (`proveAll_eq_depthFirst`).

The clauses of a predicate are tried in the same manner (`tryClauses_eq_untilCut`), but a call keeps
the cut of its clauses to itself. Put together, the search is a recursion on the depth that is left
for calls and on the lists of goals, with no frames in it (`Setting.recursive`).
-/

namespace StackLogic.Horn

namespace Search

variable {α β : Type} {s t : Tally}

/-! ## Laws of searches -/

theorem bind_apply (x : Search α) (f : α → Search β) (s : Tally) :
    (x >>= f) s = match x s with
      | (.ok a, t) => f a t
      | (.error e, t) => (.error e, t) := rfl

theorem pure_apply (a : α) (s : Tally) : (pure a : Search α) s = (.ok a, s) := rfl

instance : LawfulMonad Search :=
  LawfulMonad.mk' Search
    (by
      intro α x
      funext s
      show (x >>= pure) s = x s
      rw [bind_apply]
      rcases x s with ⟨_ | _, _⟩ <;> rfl)
    (fun _ _ => rfl)
    (by
      intro α β γ x f g
      funext s
      simp only [bind_apply]
      rcases x s with ⟨_ | _, _⟩ <;> rfl)

/-- A search that goes on ends well if both parts do. -/
theorem bind_eq_ok {x : Search α} {f : α → Search β} {c : β} :
    (x >>= f) s = (.ok c, t) ↔ ∃ a u, x s = (.ok a, u) ∧ f a u = (.ok c, t) := by
  rw [bind_apply]
  rcases x s with ⟨e | a, u⟩
  · simp
  · simp

theorem pure_eq_ok {a c : α} : (pure a : Search α) s = (.ok c, t) ↔ a = c ∧ s = t := by
  rw [pure_apply]
  simp

/-- If the search succeeds, it has not counted clauses backward. -/
def Grows (x : Search α) : Prop := ∀ ⦃s a t⦄, x s = (.ok a, t) → s.activations ≤ t.activations

theorem grows_pure (a : α) : (pure a : Search α).Grows := by
  intro s c t h
  exact Nat.le_of_eq (congrArg Tally.activations (pure_eq_ok.1 h).2)

end Search

/-! ## Trying one thing after the other until a cut -/

/-- Go on after a proof, unless a cut was met in it. -/
def Proof.followedBy (proof : Proof) (more : Search Proof) : Search Proof :=
  if proof.cut then return proof
  else do
    let rest ← more
    return { solutions := proof.solutions ++ rest.solutions, cut := rest.cut }

/-- Collect the solutions that one thing after the other leads to, and stop after the first one that
reports a cut. -/
def untilCut {α : Type} (run : α → Search Proof) : List α → Search Proof
  | [] => return { solutions := [], cut := false }
  | a :: more => do
    let proof ← run a
    proof.followedBy (untilCut run more)

/-- Prove goals from left to right, given how one goal is proved: try each alternative of the first
goal with the others. A cut has one alternative, and it is reported. -/
def depthFirst (prove : Goal → Bindings → Search (List Bindings)) :
    List Goal → Bindings → Search Proof
  | [], b => return { solutions := [b], cut := false }
  | .cut :: rest, b => do
    let proof ← depthFirst prove rest b
    return { proof with cut := true }
  | g :: rest, b => do
    let alternatives ← prove g b
    untilCut (depthFirst prove rest) alternatives

/-- After a cut nothing more is tried. -/
theorem Proof.followedBy_of_cut {proof : Proof} (h : proof.cut = true) (more : Search Proof) :
    proof.followedBy more = pure proof := by
  rw [followedBy, if_pos h]

/-- Without a cut the other proofs add their solutions. -/
theorem Proof.followedBy_of_not_cut {proof : Proof} (h : proof.cut = false) (more : Search Proof) :
    proof.followedBy more = more >>= fun rest =>
      pure { solutions := proof.solutions ++ rest.solutions, cut := rest.cut } := by
  rw [followedBy, if_neg (by simp [h])]

theorem Proof.followedBy_nothing (proof : Proof) :
    proof.followedBy (pure { solutions := [], cut := false }) = pure proof := by
  cases hc : proof.cut with
  | true => exact followedBy_of_cut hc _
  | false => rw [followedBy_of_not_cut hc, pure_bind, List.append_nil, ← hc]

/-- What is tried after two proofs may be put together first. -/
theorem Proof.followedBy_assoc (proof : Proof) (x y : Search Proof) :
    (proof.followedBy x >>= fun q => q.followedBy y) =
      proof.followedBy (x >>= fun q => q.followedBy y) := by
  cases hc : proof.cut with
  | true => rw [followedBy_of_cut hc, followedBy_of_cut hc, pure_bind, followedBy_of_cut hc]
  | false =>
    rw [followedBy_of_not_cut hc, followedBy_of_not_cut hc, bind_assoc, bind_assoc]
    congr 1
    funext q
    rw [pure_bind]
    cases hq : q.cut with
    | true => rw [followedBy_of_cut rfl, followedBy_of_cut hq, pure_bind, hq]
    | false =>
      rw [followedBy_of_not_cut rfl, followedBy_of_not_cut hq, bind_assoc]
      simp only [pure_bind, List.append_assoc]

theorem untilCut_singleton {α : Type} (run : α → Search Proof) (a : α) :
    untilCut run [a] = run a := by
  simp only [untilCut, Proof.followedBy_nothing, bind_pure]

/-! ## Frames -/

/-- Work through the alternatives of a frame. -/
def Frame.run (prove : Goal → Bindings → Search (List Bindings)) (f : Frame) : Search Proof :=
  untilCut (depthFirst prove f.goals) f.alternatives

/-- Add a proof to what was found before it. -/
def Proof.after (found : List Bindings) (cut : Bool) (proof : Proof) : Proof :=
  { solutions := found.reverse ++ proof.solutions, cut := cut || proof.cut }

theorem Proof.after_found (found : List Bindings) (cut : Bool) (b : Bindings) :
    Proof.after (b :: found) cut = fun proof =>
      Proof.after found cut { solutions := [b] ++ proof.solutions, cut := proof.cut } := by
  funext proof
  simp [after]

theorem Proof.after_cut (found : List Bindings) (cut : Bool) :
    Proof.after found true = fun proof => Proof.after found cut { proof with cut := true } := by
  funext proof
  simp [after]

variable {p : Prover} {limit : Nat} {prove : Goal → Bindings → Search (List Bindings)}

/-- A goal is proved first, and the other goals under each of its solutions. -/
theorem depthFirst_cons {g : Goal} (hg : g ≠ .cut) (rest : List Goal) (b : Bindings) :
    depthFirst prove (g :: rest) b = prove g b >>= untilCut (depthFirst prove rest) := by
  rw [depthFirst]
  exact hg

/-- A frame is its first bindings and then its others. -/
theorem untilCut_frame_cons (goals : List Goal) (b : Bindings) (more : List Bindings)
    (outer : List Frame) :
    untilCut (Frame.run prove) (⟨goals, b :: more⟩ :: outer) =
      depthFirst prove goals b >>= fun proof =>
        proof.followedBy (untilCut (Frame.run prove) (⟨goals, more⟩ :: outer)) := by
  simp only [untilCut, Frame.run, bind_assoc, Proof.followedBy_assoc]

/-- Working through frames is trying one frame after the other. -/
theorem walk_eq_untilCut (found : List Bindings) (cut : Bool) (pending : List Frame) (s : Tally) :
    walk p limit found cut pending s =
      (Proof.after found cut <$> untilCut (Frame.run (p.attempt limit)) pending) s := by
  fun_induction walk p limit found cut pending s with
  | case1 => simp [untilCut, Proof.after, Search.pure_apply]
  | case2 found cut s goals outer ih =>
    rw [ih]
    simp only [untilCut, Frame.run, pure_bind, Proof.followedBy, Bool.false_eq_true, if_false,
      List.nil_append]
    rw [bind_pure]
  | case3 found cut s b more outer ih =>
    rw [ih, untilCut_frame_cons, depthFirst, pure_bind, Proof.followedBy_of_not_cut rfl, map_bind]
    rw [Proof.after_found]
    simp only [map_pure, bind_pure_comp]
  | case4 found cut s goals b more outer ih =>
    -- the frames that the cut drops are what `followedBy` leaves out after a cut
    rw [ih, untilCut_singleton, untilCut_frame_cons, depthFirst, Frame.run, untilCut_singleton,
      bind_assoc, map_bind]
    rw [Proof.after_cut found cut]
    simp only [pure_bind, Proof.followedBy_of_cut, map_pure, bind_pure_comp]
  | case5 found cut s g goals b more outer hg next t tried ih =>
    -- the alternatives of the goal become a frame of their own, before the rest of this one
    rw [ih, untilCut_frame_cons, depthFirst_cons hg, bind_assoc, map_bind,
      Search.bind_apply, tried]
    rfl
  | case6 found cut s g goals b more outer hg e t tried =>
    rw [untilCut_frame_cons, depthFirst_cons hg, bind_assoc, map_bind,
      Search.bind_apply, tried]

/-- Walking over frames is the recursive search. -/
theorem proveAll_eq_depthFirst (p : Prover) (limit : Nat) (goals : List Goal) (b : Bindings) :
    p.proveAll limit goals b = depthFirst (p.attempt limit) goals b := by
  funext s
  rw [Prover.proveAll, walk_eq_untilCut, untilCut_singleton, Frame.run, untilCut_singleton]
  have hafter : Proof.after [] false = id := by
    funext proof
    simp [Proof.after]
  rw [hafter, id_map]

/-! ## Calls -/

/-- The goals after the head. -/
def Clause.body : Clause → List BodyGoal
  | fact _ => []
  | rule _ body => body

/-- Use one clause for a call: unify the arguments with the renamed head and prove the body. -/
def proveClause (prove : Goal → Bindings → Search (List Bindings)) (args : List Term)
    (b : Bindings) (clause : Clause) : Search Proof := do
  let k ← Search.activate
  match unifyAll args (Term.renameAll (Term.freshName k) clause.args) b with
  | none => return { solutions := [], cut := false }
  | some unified =>
    let goals ← Search.ofExcept (instantiate k clause.body)
    depthFirst prove goals unified

theorem Proof.nothing_followedBy (more : Search Proof) :
    Proof.followedBy { solutions := [], cut := false } more = more := by
  rw [followedBy_of_not_cut rfl]
  exact bind_pure more

/-- The clauses of a predicate are tried one after the other until a cut. -/
theorem tryClauses_eq_untilCut (w : Setting) (inner : Prover) (args : List Term) (b : Bindings)
    (clauses : List Clause) :
    w.tryClauses inner args b clauses =
      Proof.solutions <$>
        untilCut (proveClause (inner.attempt w.limits.proofSteps) args b) clauses := by
  induction clauses with
  | nil => simp [Setting.tryClauses, untilCut]
  | cons clause others ih =>
    rw [Setting.tryClauses, untilCut, proveClause, bind_assoc, map_bind]
    congr 1
    funext k
    cases unifyAll args (Term.renameAll (Term.freshName k) clause.args) b with
    | none =>
      simp only [pure_bind, Proof.nothing_followedBy]
      exact ih
    | some unified =>
      cases clause with
      | fact head =>
        have hbody : Search.ofExcept (instantiate k (Clause.fact head).body) = pure [] := rfl
        simp only [hbody, ih, pure_bind, depthFirst, Proof.followedBy_of_not_cut, map_bind,
          bind_map_left, map_pure, List.singleton_append]
      | rule head body =>
        simp only [Clause.body, bind_assoc, map_bind, proveAll_eq_depthFirst]
        congr 1
        funext goals
        congr 1
        funext proof
        cases hc : proof.cut with
        | true => simp [Proof.followedBy_of_cut hc]
        | false =>
          rw [Proof.followedBy_of_not_cut hc, if_neg (by simp), ih]
          simp only [map_bind, bind_map_left, map_pure]

/-- Call a predicate, given how the goals of bodies are proved: its clauses are tried one after the
other until a cut. -/
def Setting.callThrough (w : Setting) (prove : Goal → Bindings → Search (List Bindings))
    (name : String) (args : List Term) (b : Bindings) : Search (List Bindings) := do
  let values := args.map b.resolveDeep
  Search.emitAll (w.entryLines name values)
  let proof ← untilCut (proveClause prove values b) (w.database.clauses name)
  Search.emitAll (w.exitLines name values proof.solutions)
  return proof.solutions

/-- Trying the clauses of a predicate is trying their proofs until a cut. -/
theorem call_eq_callThrough (w : Setting) (inner : Prover) (name : String) (args : List Term)
    (b : Bindings) :
    w.call inner name args b =
      w.callThrough (inner.attempt w.limits.proofSteps) name args b := by
  rw [Setting.call, Setting.callResolved, tryClauses_eq_untilCut, Setting.callThrough]
  simp only [bind_map_left]

/-- Count a step and prove a goal, while steps are left. -/
def counted (limit : Nat) (prove : Goal → Bindings → Search (List Bindings)) (g : Goal)
    (b : Bindings) : Search (List Bindings) := fun s =>
  let s' := { s with steps := s.steps + 1 }
  if s.steps < limit then prove g b s' else (.error (.exhausted .steps limit), s')

/-- The search as a recursion throughout: goals and bodies are proved by `depthFirst`. -/
def Setting.recursive (w : Setting) : Nat → Goal → Bindings → Search (List Bindings)
  | 0 => counted w.limits.proofSteps
      (proveWith fun _ _ _ => Search.fail (.exhausted .depth w.limits.proofDepth))
  | n + 1 => counted w.limits.proofSteps (proveWith (w.callThrough (w.recursive n)))

/-- The prover with its limits is the recursion. -/
theorem attempt_eq_recursive (w : Setting) (n : Nat) :
    (w.prover n).attempt w.limits.proofSteps = w.recursive n := by
  induction n with
  | zero => rfl
  | succ n ih =>
    have hcall : (fun name args b => w.call (w.prover n) name args b) =
        w.callThrough (w.recursive n) := by
      funext name args b
      rw [call_eq_callThrough, ih]
    show counted w.limits.proofSteps
      (proveWith fun name args b => w.call (w.prover n) name args b) = _
    rw [hcall, Setting.recursive]

/-! ## What a run has done -/

variable {α : Type} {run : α → Search Proof} {as : List α} {s t : Tally} {proof : Proof}

theorem Proof.followedBy_eq_ok {first : Proof} {more : Search Proof} :
    first.followedBy more s = (.ok proof, t) ↔
      (first.cut = true ∧ first = proof ∧ s = t) ∨
      (first.cut = false ∧ ∃ rest, more s = (.ok rest, t) ∧
        proof = { solutions := first.solutions ++ rest.solutions, cut := rest.cut }) := by
  cases hc : first.cut with
  | true =>
    rw [followedBy_of_cut hc, Search.pure_eq_ok]
    simp
  | false =>
    rw [followedBy_of_not_cut hc, Search.bind_eq_ok]
    constructor
    · rintro ⟨rest, u, hrest, hdone⟩
      obtain ⟨hp, rfl⟩ := Search.pure_eq_ok.1 hdone
      exact Or.inr ⟨rfl, rest, hrest, hp.symm⟩
    · rintro (⟨habsurd, _⟩ | ⟨_, rest, hrest, hp⟩)
      · cases habsurd
      · exact ⟨rest, t, hrest, Search.pure_eq_ok.2 ⟨hp.symm, rfl⟩⟩

/-- No proof takes activations back. -/
theorem grows_untilCut (hrun : ∀ a ∈ as, (run a).Grows) : (untilCut run as).Grows := by
  induction as with
  | nil => exact Search.grows_pure _
  | cons a more ih =>
    obtain ⟨ha, hmore⟩ := List.forall_mem_cons.1 hrun
    intro s proof t h
    obtain ⟨first, u, hfirst, hgo⟩ := Search.bind_eq_ok.1 h
    rcases Proof.followedBy_eq_ok.1 hgo with ⟨_, _, rfl⟩ | ⟨_, rest, hrest, _⟩
    · exact ha hfirst
    · exact Nat.le_trans (ha hfirst) (ih hmore hrest)

/-- Each solution was found by one of the things that were tried. -/
theorem exists_of_mem_untilCut (hrun : ∀ a ∈ as, (run a).Grows)
    (h : untilCut run as s = (.ok proof, t)) {b : Bindings} (hb : b ∈ proof.solutions) :
    ∃ a ∈ as, ∃ s₁ q t₁, run a s₁ = (.ok q, t₁) ∧ b ∈ q.solutions ∧
      t₁.activations ≤ t.activations := by
  induction as generalizing s proof with
  | nil =>
    obtain ⟨rfl, _⟩ := Search.pure_eq_ok.1 h
    cases hb
  | cons a more ih =>
    obtain ⟨_, hmore⟩ := List.forall_mem_cons.1 hrun
    obtain ⟨first, u, hfirst, hgo⟩ := Search.bind_eq_ok.1 h
    rcases Proof.followedBy_eq_ok.1 hgo with ⟨_, rfl, rfl⟩ | ⟨_, rest, hrest, rfl⟩
    · exact ⟨a, List.mem_cons_self, s, first, u, hfirst, hb, Nat.le_refl _⟩
    · rcases List.mem_append.1 hb with hb | hb
      · exact ⟨a, List.mem_cons_self, s, first, u, hfirst, hb, grows_untilCut hmore hrest⟩
      · obtain ⟨c, hc, hfound⟩ := ih hmore hrest hb
        exact ⟨c, List.mem_cons_of_mem _ hc, hfound⟩

/-- A cut that is reported was reported by one of the things that were tried. -/
theorem exists_cut_of_untilCut (h : untilCut run as s = (.ok proof, t)) (hc : proof.cut = true) :
    ∃ a ∈ as, ∃ s₁ q t₁, run a s₁ = (.ok q, t₁) ∧ q.cut = true := by
  induction as generalizing s proof with
  | nil =>
    obtain ⟨rfl, _⟩ := Search.pure_eq_ok.1 h
    cases hc
  | cons a more ih =>
    obtain ⟨first, u, hfirst, hgo⟩ := Search.bind_eq_ok.1 h
    rcases Proof.followedBy_eq_ok.1 hgo with ⟨hcut, _⟩ | ⟨_, rest, hrest, rfl⟩
    · exact ⟨a, List.mem_cons_self, s, first, u, hfirst, hcut⟩
    · obtain ⟨c, hmem, hfound⟩ := ih hrest hc
      exact ⟨c, List.mem_cons_of_mem _ hmem, hfound⟩

/-- Only a cut among the goals themselves is reported, none of a call. -/
theorem cut_mem_of_depthFirst {goals : List Goal} {b : Bindings}
    (h : depthFirst prove goals b s = (.ok proof, t)) (hc : proof.cut = true) :
    Goal.cut ∈ goals := by
  induction goals generalizing b s t proof with
  | nil =>
    obtain ⟨rfl, _⟩ := Search.pure_eq_ok.1 h
    cases hc
  | cons g rest ih =>
    by_cases hg : g = .cut
    · rw [hg]
      exact List.mem_cons_self
    · rw [depthFirst_cons hg] at h
      obtain ⟨alternatives, u, _, hrest⟩ := Search.bind_eq_ok.1 h
      obtain ⟨b', _, s₁, q, t₁, hq, hqc⟩ := exists_cut_of_untilCut hrest hc
      exact List.mem_cons_of_mem _ (ih hq hqc)

/-- If nothing reports a cut, each thing is tried, and its solutions are among all solutions. -/
theorem exists_run_of_untilCut (hrun : ∀ a ∈ as, (run a).Grows)
    (hcut : ∀ a ∈ as, ∀ s q t, run a s = (.ok q, t) → q.cut = false)
    (h : untilCut run as s = (.ok proof, t)) {a : α} (ha : a ∈ as) :
    ∃ s₁ q t₁, s.activations ≤ s₁.activations ∧ run a s₁ = (.ok q, t₁) ∧
      ∀ b ∈ q.solutions, b ∈ proof.solutions := by
  induction as generalizing s proof with
  | nil => cases ha
  | cons c more ih =>
    obtain ⟨hgrows, hmore⟩ := List.forall_mem_cons.1 hrun
    obtain ⟨hfirstCut, hmoreCut⟩ := List.forall_mem_cons.1 hcut
    obtain ⟨first, u, hfirst, hgo⟩ := Search.bind_eq_ok.1 h
    rcases Proof.followedBy_eq_ok.1 hgo with ⟨hc, _⟩ | ⟨_, rest, hrest, rfl⟩
    · rw [hfirstCut s first u hfirst] at hc
      cases hc
    · rcases List.mem_cons.1 ha with rfl | ha
      · exact ⟨s, first, u, Nat.le_refl _, hfirst, fun b hb => List.mem_append_left _ hb⟩
      · obtain ⟨s₁, q, t₁, hle, hq, hmem⟩ := ih hmore hmoreCut hrest ha
        exact ⟨s₁, q, t₁, Nat.le_trans (hgrows hfirst) hle, hq,
          fun b hb => List.mem_append_right _ (hmem b hb)⟩

/-- If nothing reports a cut, everything is tried. -/
theorem untilCut_eq_mapM (hrun : ∀ a ∈ as, ∀ s q t, run a s = (.ok q, t) → q.cut = false) :
    untilCut run as = (do
      let proofs ← as.mapM run
      return { solutions := proofs.flatMap Proof.solutions, cut := false }) := by
  induction as with
  | nil => simp [untilCut]
  | cons a more ih =>
    obtain ⟨ha, hmore⟩ := List.forall_mem_cons.1 hrun
    rw [untilCut, List.mapM_cons, bind_assoc]
    funext s
    rw [Search.bind_apply, Search.bind_apply]
    rcases hq : run a s with ⟨e | q, u⟩
    · rfl
    · simp only [Proof.followedBy_of_not_cut (ha s q u hq), ih hmore, bind_assoc, pure_bind,
        List.flatMap_cons]

/-- Goals without a cut try every alternative of the first goal with the others. -/
theorem depthFirst_eq_mapM {g : Goal} {rest : List Goal} (hcut : Goal.cut ∉ g :: rest)
    (b : Bindings) :
    depthFirst prove (g :: rest) b = (do
      let alternatives ← prove g b
      let proofs ← alternatives.mapM (depthFirst prove rest)
      return { solutions := proofs.flatMap Proof.solutions, cut := false }) := by
  obtain ⟨hg, hrest⟩ := not_or.1 (mt List.mem_cons.2 hcut)
  have hnocut : ∀ b' s q t, depthFirst prove rest b' s = (.ok q, t) → q.cut = false := by
    intro b' s q t hq
    exact Bool.eq_false_iff.2 fun hc => hrest (cut_mem_of_depthFirst hq hc)
  rw [depthFirst_cons (Ne.symm hg)]
  congr 1
  funext alternatives
  exact untilCut_eq_mapM fun b' _ => hnocut b'

/-- The search through frames is the depth-first recursion: the same solutions in the same order,
the same cut flag or failure, the same counters and emitted lines. A call collects the solutions of
its clauses in their order, up to the first clause whose body met a cut. A goal list without a cut of
its own tries every alternative with the goals after it, whatever its calls have cut. -/
theorem proveAll_refines_depthFirst (w : Setting) (n : Nat) :
    (∀ g b s, (w.prover n).attempt w.limits.proofSteps g b s = w.recursive n g b s) ∧
    (∀ goals b s, (w.prover n).proveAll w.limits.proofSteps goals b s =
      depthFirst (w.recursive n) goals b s) ∧
    (∀ name args b s, w.call (w.prover n) name args b s =
      w.callThrough (w.recursive n) name args b s) ∧
    (∀ g rest b s, Goal.cut ∉ g :: rest →
      (w.prover n).proveAll w.limits.proofSteps (g :: rest) b s = (do
        let alternatives ← w.recursive n g b
        let proofs ← alternatives.mapM ((w.prover n).proveAll w.limits.proofSteps rest)
        return { solutions := proofs.flatMap Proof.solutions, cut := false } : Search Proof) s) := by
  have hgoal := attempt_eq_recursive w n
  have hgoals : ∀ goals, (w.prover n).proveAll w.limits.proofSteps goals =
      depthFirst (w.recursive n) goals := by
    intro goals
    funext b
    rw [proveAll_eq_depthFirst, hgoal]
  refine ⟨fun g b s => ?_, fun goals b s => ?_, fun name args b s => ?_, fun g rest b s hcut => ?_⟩
  · rw [hgoal]
  · rw [hgoals]
  · rw [call_eq_callThrough, hgoal]
  · rw [hgoals, hgoals, depthFirst_eq_mapM hcut]

/-! ## A program with a cut -/

/-- The goal `q(X)` of a body. -/
def BodyGoal.callQ : BodyGoal where
  text := "q(X)"
  goal := .ok (.call "q" [.var "X"])
  goal_eq := by
    have htokens : Tokens.ofString "q(X)" = .ok
        { items := [⟨.atom "q", 0⟩, ⟨.openParen, 1⟩, ⟨.variableName "X", 2⟩, ⟨.closeParen, 3⟩]
          finish := 4 } := by decide +kernel
    have hterm : Grammar.term 4 [⟨.variableName "X", 2⟩, ⟨.closeParen, 3⟩] =
        Grammar.Reading.one (Term.var "X") [⟨.closeParen, 3⟩] := by rw [Grammar.term]
    have hgoal : Grammar.goal
        { items := [⟨.atom "q", 0⟩, ⟨.openParen, 1⟩, ⟨.variableName "X", 2⟩, ⟨.closeParen, 3⟩]
          finish := 4 } = .ok (.call "q" [.var "X"]) := by
      simp [Grammar.goal, Grammar.splitOperator, Grammar.GoalOperator.ofLexeme?, Grammar.nest,
        Grammar.simpleGoal, Grammar.whole, Grammar.head, Grammar.arguments, Grammar.sequence,
        hterm, Grammar.Reading.one]
      rfl
    rw [Goal.ofString, htokens]
    exact hgoal.symm

/-- The goal `!` of a body. -/
def BodyGoal.bang : BodyGoal where
  text := "!"
  goal := .ok .cut
  goal_eq := by
    have htokens : Tokens.ofString "!" = .ok { items := [⟨.bang, 0⟩], finish := 1 } := by
      decide +kernel
    rw [Goal.ofString, htokens]
    rfl

/-- The facts `q(a)` and `q(b)`, the rule `p(X) :- q(X)` with more goals, and the fact `p(c)`. -/
def sample (more : List BodyGoal) : Setting where
  database :=
    { predicates := [
        ("q", [.fact [.atom "a"], .fact [.atom "b"]]),
        ("p", [.rule [.var "X"] (.callQ :: more), .fact [.atom "c"]])]
      names := ["q", "p"] }
  trace := false
  limits := {}

/-- With `p(X) :- q(X), !` the goals `q(Y), p(X)` have two solutions: the cut takes `p(b)` and `p(c)`
away and leaves both alternatives of `q(Y)`. -/
theorem proveAll_cut_in_call :
    Goal.cut ∉ [Goal.call "q" [.var "Y"], .call "p" [.var "X"]] ∧
    (((sample [.bang]).prover 2).proveAll (sample [.bang]).limits.proofSteps
        [.call "q" [.var "Y"], .call "p" [.var "X"]] .empty ⟨0, 0, .empty⟩).1.map
      (fun proof => (proof.cut, proof.solutions.map fun b =>
        ((b.resolveDeep (.var "Y")).display, (b.resolveDeep (.var "X")).display))) =
      .ok (false, [("a", "a"), ("b", "a")]) := by
  have hcut : Goal.cut ∉ [Goal.call "q" [.var "Y"], .call "p" [.var "X"]] := by simp
  obtain ⟨_, hrun, _, hall⟩ := proveAll_refines_depthFirst (sample [.bang]) 2
  have hrest : ((sample [.bang]).prover 2).proveAll (sample [.bang]).limits.proofSteps
      [.call "p" [.var "X"]] = depthFirst ((sample [.bang]).recursive 2) [.call "p" [.var "X"]] :=
    funext₂ (hrun [.call "p" [.var "X"]])
  rw [hall _ _ _ _ hcut, hrest]
  exact ⟨hcut, by decide +kernel⟩

end StackLogic.Horn
