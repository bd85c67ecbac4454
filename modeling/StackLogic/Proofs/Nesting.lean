import StackLogic.Proofs.Unifying

/-!
# The bound on the recursion of unification

`unify` limits how deep it goes into lists by a bound on how deep lists can nest. The bound is never
met: as deep as unification goes, so deep the term on the left nests when the bindings made on the
way are replaced in it. These bindings mention only variables and parts of terms that were there at
the start. So they are at most as many as there are variables, and each adds at most the nesting of
one of the terms.

Hence `unify` and `unifyAll` give the result of the unlimited run (`unifying_unify`,
`unifying_unifyAll`).
-/

namespace StackLogic.Horn

namespace Term

mutual

/-- How deep the lists in a term nest. -/
def nesting : Term → Nat
  | list items => nestingAll items + 1
  | _ => 0

/-- How deep the lists in several terms nest. -/
def nestingAll : List Term → Nat
  | [] => 0
  | t :: rest => max t.nesting (nestingAll rest)

end

theorem nestingAll_le_iff {ts : List Term} {n : Nat} :
    nestingAll ts ≤ n ↔ ∀ t ∈ ts, t.nesting ≤ n := by
  induction ts with
  | nil => simp [nestingAll]
  | cons t rest ih => simp [nestingAll, ih]

theorem nesting_lt_list {t : Term} {items : List Term} (h : t ∈ items) :
    t.nesting < (list items).nesting :=
  Nat.lt_succ_of_le (nestingAll_le_iff.1 (Nat.le_refl _) t h)

theorem nesting_le_weight (t : Term) : t.nesting ≤ t.weight := by
  induction t with
  | var | atom | num | str => simp [nesting]
  | list items ih =>
    have hle : nestingAll items ≤ weightAll items :=
      nestingAll_le_iff.2 fun t ht => Nat.le_trans (ih t ht) (weight_le_weightAll ht)
    rw [nesting, weight]
    omega

/-- Replacing variables adds at most the nesting of what they are replaced by. -/
theorem nesting_subst_le {f : String → Term} {k : Nat} (t : Term)
    (h : ∀ x ∈ t.variableNames, (f x).nesting ≤ k) : (t.subst f).nesting ≤ t.nesting + k := by
  induction t with
  | var name =>
    have hname := h name (by simp)
    rw [subst_var]
    omega
  | atom | num | str => simp [nesting]
  | list items ih =>
    have hle : nestingAll (items.map (subst f)) ≤ nestingAll items + k := by
      refine nestingAll_le_iff.2 fun u hu => ?_
      obtain ⟨t, ht, rfl⟩ := List.mem_map.1 hu
      have hsub := ih t ht fun x hx => h x (mem_variableNames_list.2 ⟨t, ht, hx⟩)
      have hnest : t.nesting ≤ nestingAll items := nestingAll_le_iff.1 (Nat.le_refl _) t ht
      omega
    rw [subst_list, nesting, nesting]
    omega

theorem length_addName_le (names : List String) (x : String) :
    (addName names x).length ≤ names.length + 1 := by
  unfold addName
  split <;> simp

theorem length_addVariables_le (t : Term) (names : List String) :
    (t.addVariables names).length ≤ names.length + t.weight := by
  induction t generalizing names with
  | var name => exact length_addName_le names name
  | atom | num | str => simp [addVariables]
  | list items ih =>
    have hall : ∀ names, (addVariablesAll names items).length ≤ names.length + weightAll items := by
      induction items with
      | nil => simp [addVariablesAll]
      | cons t rest ihr =>
        intro names
        have h₁ := ih t List.mem_cons_self names
        have h₂ := ihr (fun u hu => ih u (List.mem_cons_of_mem _ hu)) (t.addVariables names)
        rw [addVariablesAll, weightAll]
        omega
    have hle := hall names
    rw [addVariables, weight]
    omega

/-- A term has no more variables than its weight. -/
theorem length_variableNames_le (t : Term) : t.variableNames.length ≤ t.weight := by
  have hle := length_addVariables_le t []
  rwa [List.length_nil, Nat.zero_add] at hle

/-- The term mentions only these variables and nests at most so deep. -/
def Within (V : Finset String) (D : Nat) (t : Term) : Prop :=
  (∀ x ∈ t.variableNames, x ∈ V) ∧ t.nesting ≤ D

/-- The items of a list stay within the bounds of the list. -/
theorem hereditary_within (V : Finset String) (D : Nat) : Hereditary (Within V D) := by
  intro items h t ht
  refine ⟨fun x hx => h.1 x (mem_variableNames_list.2 ⟨t, ht, hx⟩), ?_⟩
  have hlt := nesting_lt_list ht
  have hle := h.2
  omega

end Term

namespace Bindings

variable {b b' : Bindings} {V : Finset String} {D : Nat} {t : Term}

/-- Bindings within a set of variables bind no more than these. -/
theorem All.card_keys_le (hb : b.All (Term.Within V D)) : b.keys.card ≤ V.card := by
  refine Finset.card_le_card fun x hx => ?_
  obtain ⟨t, ht⟩ := mem_keys.1 hx
  exact (hb x t ht).1.1 x (by simp)

/-- Each level of expansion adds the nesting of one bound term at most. -/
theorem All.nesting_expand_le (hb : b.All (Term.Within V D)) (n : Nat) (t : Term) :
    (b.expand n t).nesting ≤ t.nesting + n * D := by
  induction n generalizing t with
  | zero => simp [expand]
  | succ n ih =>
    refine Term.nesting_subst_le t fun x _ => ?_
    cases hg : b.get? x with
    | none => simp [Term.nesting]
    | some u =>
      have hu := (hb x u hg).2.2
      have hle := ih u
      rw [Nat.succ_mul]
      show (b.expand n u).nesting ≤ _
      omega

/-- A path into a term visits each variable at most once, and between two variables it stays within
one term. -/
theorem All.nesting_resolveDeep_le (hb : b.All (Term.Within V D)) (hw : b.WellFormed)
    (ht : t.Within V D) : (b.resolveDeep t).nesting ≤ (V.card + 1) * D := by
  calc (b.resolveDeep t).nesting = (b.expand b.keys.card t).nesting := by
        rw [hw.resolveDeep_eq_expand]
    _ ≤ t.nesting + b.keys.card * D := hb.nesting_expand_le _ _
    _ ≤ D + V.card * D := Nat.add_le_add ht.2 (Nat.mul_le_mul_right D hb.card_keys_le)
    _ = (V.card + 1) * D := by rw [Nat.succ_mul, Nat.add_comm]

end Bindings

open Bindings

/-! ## Depth that is enough -/

variable {Q : Term → Prop} {b b₁ : Bindings} {left right t x : Term} {xs ys : List Term} {n : Nat}

/-- Whatever is bound from here on, the term nests less than `n` deep when bound variables are
replaced. -/
def StaysWithin (Q : Term → Prop) (b : Bindings) (n : Nat) (t : Term) : Prop :=
  ∀ b' : Bindings, b'.WellFormed → b.Extends b' → b'.All Q → (b'.resolveDeep t).nesting < n

/-- More bindings need no more depth. -/
theorem StaysWithin.mono (h : StaysWithin Q b n t) (he : b.Extends b₁) : StaysWithin Q b₁ n t :=
  fun b' hw he' hQ => h b' hw (he.trans he') hQ

/-- The items of a list need one level less than the list. -/
theorem StaysWithin.element (h : StaysWithin Q b (n + 1) left)
    (hl : Resolves b left (.list xs)) (hx : x ∈ xs) : StaysWithin Q b n x := by
  intro b' hw he hQ
  have hlt := h b' hw he hQ
  rw [← hl.resolveDeep_eq hw he, resolveDeep_list] at hlt
  have hx := Term.nesting_lt_list (List.mem_map_of_mem (f := b'.resolveDeep) hx)
  omega

/-- Binding a variable that is met is what a run does, the occurs check included. -/
theorem unifying_assign {y : String} (hb : b.WellFormed) (hn : BothNamed left right)
    (hm : Meets b left right y t) : Unifying (.pair left right) b (b.assign y t) := by
  have ho := hb.occurs_occurs y t
  unfold Bindings.assign
  split
  next h => exact .occursCheck hn hm (h ▸ ho)
  next h => exact .bind hn hm ((Bool.eq_false_iff.2 h) ▸ ho)

/-- Unifying lists element by element ends if unifying elements does, under all bindings that are
met. -/
theorem unifying_unifyEach {step : Term → Term → Bindings → Option Bindings}
    (hQ : Term.Hereditary Q) (hlen : xs.length = ys.length) (hw : b.WellFormed) (hb : b.All Q)
    (hxs : ∀ x ∈ xs, Q x) (hys : ∀ y ∈ ys, Q y)
    (hstep : ∀ x ∈ xs, ∀ y ∈ ys, ∀ b' : Bindings, b'.WellFormed → b.Extends b' → b'.All Q →
      Unifying (.pair x y) b' (step x y b')) :
    Unifying (.each xs ys) b (unifyEach step xs ys b) := by
  induction xs generalizing ys b with
  | nil =>
    obtain rfl := List.length_eq_zero_iff.1 hlen.symm
    exact .done
  | cons x xs ih =>
    obtain ⟨y, ys, rfl⟩ := List.exists_cons_of_length_eq_add_one hlen.symm
    obtain ⟨hx, hxs⟩ := List.forall_mem_cons.1 hxs
    obtain ⟨hy, hys⟩ := List.forall_mem_cons.1 hys
    have hfirst := hstep x List.mem_cons_self y List.mem_cons_self b hw (Extends.refl b) hb
    rw [unifyEach]
    cases hres : step x y b with
    | none => exact .stop (hres ▸ hfirst)
    | some b₁ =>
      rw [hres] at hfirst
      obtain ⟨hw₁, he⟩ := hfirst.wellFormed hw rfl
      have hb₁ := hfirst.all hQ ⟨hx, hy⟩ hb rfl
      refine .next hfirst (ih (by simpa using hlen) hw₁ hb₁ hxs hys ?_)
      intro x' hx' y' hy' b' hw' he' hb'
      exact hstep x' (List.mem_cons_of_mem _ hx') y' (List.mem_cons_of_mem _ hy') b' hw'
        (he.trans he') hb'

theorem unifyEach_eq_none {step : Term → Term → Bindings → Option Bindings}
    (hlen : xs.length ≠ ys.length) : unifyEach step xs ys b = none := by
  fun_induction unifyEach step xs ys b with
  | case1 => exact absurd rfl hlen
  | case2 _ _ _ _ _ _ _ ih => exact ih (by simpa using hlen)
  | case3 => rfl
  | case4 => rfl

/-- With enough depth for what the left term can ever stand for, the function with a limit is a run.
-/
theorem unifying_unifyWithin (hQ : Term.Hereditary Q) (n : Nat) (hw : b.WellFormed) (hb : b.All Q)
    (hl : Q left) (hr : Q right) (hfit : StaysWithin Q b n left) :
    Unifying (.pair left right) b (unifyWithin n left right b) := by
  induction n generalizing left right b with
  | zero => exact absurd (hfit b hw (Extends.refl b) hb) (Nat.not_lt_zero _)
  | succ n ih =>
    unfold unifyWithin
    split
    next h =>
      refine .anonymous fun hn => ?_
      rw [hn.1, hn.2] at h
      cases h
    next h =>
      have hn : BothNamed left right := by
        rw [Bool.or_eq_true, not_or, Bool.not_eq_true, Bool.not_eq_true] at h
        exact h
      have hleft := hw.resolves_resolve left
      have hright := hw.resolves_resolve right
      split
      next x y hx hy =>
        rw [hx] at hleft
        rw [hy] at hright
        split
        next hxy => exact .same hn hleft (hxy ▸ hright)
        next hxy =>
          refine unifying_assign hw hn (.left hleft hright fun h => hxy ?_)
          exact (Term.var.inj h).symm
      next x hx hv =>
        rw [hx] at hleft
        exact unifying_assign hw hn (.left hleft hright (hv x))
      next y hy hv =>
        rw [hy] at hright
        exact unifying_assign hw hn (.right hleft hright hv)
      next xs ys hx hy =>
        rw [hx] at hleft
        rw [hy] at hright
        by_cases hlen : xs.length = ys.length
        · have hxs := hQ (hb.of_resolves hleft hl)
          have hys := hQ (hb.of_resolves hright hr)
          refine .lists hn hleft hright hlen (unifying_unifyEach hQ hlen hw hb hxs hys ?_)
          -- elements nest one level less, also under the bindings made for the elements before
          intro x hx y hy b' hw' he hb'
          exact ih hw' hb' (hxs x hx) (hys y hy) ((hfit.element hleft hx).mono he)
        · rw [unifyEach_eq_none hlen]
          exact .lengths hn hleft hright hlen
      next hx hy _ hst => exact .constants hn hleft hright hx hy hst

/-! ## The bound that is used -/

/-- The variables in a list of bindings, bound ones and others. -/
def mentionedNames (es : List (String × Term)) : List String :=
  es.flatMap fun e => e.1 :: e.2.variableNames

theorem length_mentionedNames_le (es : List (String × Term)) :
    (mentionedNames es).length ≤ entriesWeight es := by
  induction es with
  | nil => simp [mentionedNames]
  | cons e rest ih =>
    have hle := e.2.length_variableNames_le
    simp only [mentionedNames, List.flatMap_cons, List.length_append, List.length_cons,
      entriesWeight] at ih ⊢
    omega

theorem weight_le_entriesWeight {es : List (String × Term)} {e : String × Term} (h : e ∈ es) :
    e.2.weight ≤ entriesWeight es := by
  induction es with
  | nil => cases h
  | cons d rest ih =>
    rw [entriesWeight]
    rcases List.mem_cons.1 h with rfl | h
    · omega
    · have hle := ih h
      omega

/-- Bindings stay within their own variables and their own weight. -/
theorem Bindings.all_within (b : Bindings) {V : Finset String} {D : Nat}
    (hV : ∀ x ∈ mentionedNames b.entries, x ∈ V) (hD : b.weight ≤ D) :
    b.All (Term.Within V D) := by
  intro x t hx
  obtain ⟨before, after, he, _⟩ := List.lookup_eq_some_iff.1 hx
  have hmem : (x, t) ∈ b.entries := by rw [he]; simp
  have hnames : ∀ y ∈ x :: t.variableNames, y ∈ V := fun y hy =>
    hV y (List.mem_flatMap.2 ⟨(x, t), hmem, hy⟩)
  have hweight : t.weight ≤ b.weight := b.weight_eq ▸ weight_le_entriesWeight hmem
  refine ⟨⟨fun y hy => hnames y ?_, Nat.zero_le _⟩, fun y hy => hnames y ?_, ?_⟩
  · exact List.mem_cons.2 (Or.inl (Term.mem_variableNames_var.1 hy))
  · exact List.mem_cons_of_mem _ hy
  · exact t.nesting_le_weight.trans (hweight.trans hD)

/-- Terms over at most `W` variables that nest at most `W` deep stay within the bound for `W`. -/
theorem staysWithin_nestingBound {V : Finset String} {W : Nat} (hV : V.card ≤ W)
    (ht : t.Within V W) : StaysWithin (Term.Within V W) b (nestingBound W) t := by
  intro b' hw _ hb'
  calc (b'.resolveDeep t).nesting ≤ (V.card + 1) * W := hb'.nesting_resolveDeep_le hw ht
    _ ≤ (W + 1) * W := Nat.mul_le_mul_right W (Nat.succ_le_succ hV)
    _ < (W + 1) * (W + 1) := Nat.mul_lt_mul_of_pos_left (Nat.lt_succ_self W) (Nat.succ_pos W)

theorem Term.length_flatMap_variableNames_le (ts : List Term) :
    (ts.flatMap Term.variableNames).length ≤ Term.weightAll ts := by
  induction ts with
  | nil => simp
  | cons t rest ih =>
    have hle := t.length_variableNames_le
    rw [List.flatMap_cons, List.length_append, Term.weightAll]
    omega

/-- Bindings and terms of weight `W` together stay within at most `W` variables and a nesting of at
most `W`. -/
theorem exists_within (b : Bindings) {ts : List Term} {W : Nat}
    (hW : b.weight + Term.weightAll ts = W) :
    ∃ V : Finset String, V.card ≤ W ∧ b.All (Term.Within V W) ∧ ∀ t ∈ ts, t.Within V W := by
  refine ⟨(mentionedNames b.entries ++ ts.flatMap Term.variableNames).toFinset, ?_, ?_, ?_⟩
  · have hb := length_mentionedNames_le b.entries
    have hts := Term.length_flatMap_variableNames_le ts
    refine (List.toFinset_card_le _).trans ?_
    rw [← b.weight_eq] at hb
    rw [List.length_append]
    omega
  · exact b.all_within (fun x hx => by simp [hx]) (by omega)
  · intro t ht
    refine ⟨fun x hx => ?_, t.nesting_le_weight.trans ?_⟩
    · exact List.mem_toFinset.2 (List.mem_append_right _ (List.mem_flatMap.2 ⟨t, ht, hx⟩))
    · have hle := Term.weight_le_weightAll ht
      omega

/-- Unifying two terms ends, and `unify` gives the result. -/
theorem unifying_unify (hw : b.WellFormed) (left right : Term) :
    Unifying (.pair left right) b (unify left right b) := by
  have hW : b.weight + Term.weightAll [left, right] = b.weight + left.weight + right.weight := by
    simp only [Term.weightAll]
    omega
  obtain ⟨V, hV, hb, hts⟩ := exists_within b hW
  have hleft := hts left (by simp)
  exact unifying_unifyWithin (Term.hereditary_within _ _) _ hw hb hleft (hts right (by simp))
    (staysWithin_nestingBound hV hleft)

theorem Term.weightAll_append (ts us : List Term) :
    Term.weightAll (ts ++ us) = Term.weightAll ts + Term.weightAll us := by
  induction ts with
  | nil => simp [Term.weightAll]
  | cons t rest ih =>
    rw [List.cons_append, Term.weightAll, Term.weightAll, ih]
    omega

/-- Unifying lists of arguments ends, and `unifyAll` gives the result. -/
theorem unifying_unifyAll {lefts rights : List Term} (hw : b.WellFormed)
    (hlen : lefts.length = rights.length) :
    Unifying (.each lefts rights) b (unifyAll lefts rights b) := by
  have hW : b.weight + Term.weightAll (lefts ++ rights) =
      b.weight + Term.weightAll lefts + Term.weightAll rights := by
    rw [Term.weightAll_append]
    omega
  obtain ⟨V, hV, hb, hts⟩ := exists_within b hW
  have hlefts : ∀ t ∈ lefts, t.Within V _ := fun t ht => hts t (List.mem_append_left _ ht)
  have hrights : ∀ t ∈ rights, t.Within V _ := fun t ht => hts t (List.mem_append_right _ ht)
  refine unifying_unifyEach (Term.hereditary_within _ _) hlen hw hb hlefts hrights ?_
  intro x hx y hy b' hw' _ hb'
  exact unifying_unifyWithin (Term.hereditary_within _ _) _ hw' hb' (hlefts x hx) (hrights y hy)
    (staysWithin_nestingBound hV (hlefts x hx))

theorem unifyAll_eq_none {lefts rights : List Term} (hlen : lefts.length ≠ rights.length) :
    unifyAll lefts rights b = none :=
  unifyEach_eq_none hlen

/-- Argument lists that unify are unified by a run. -/
theorem unifying_of_unifyAll {lefts rights : List Term} {b' : Bindings} (hw : b.WellFormed)
    (h : unifyAll lefts rights b = some b') : Unifying (.each lefts rights) b (some b') := by
  by_cases hlen : lefts.length = rights.length
  · exact h ▸ unifying_unifyAll hw hlen
  · rw [unifyAll_eq_none hlen] at h
    cases h

/-! ## Runs have one result -/

/-- Terms that are not `_` are resolved first, and then compared. -/
theorem unifyWithin_succ (hn : BothNamed left right) (n : Nat) :
    unifyWithin (n + 1) left right b =
      match b.resolve left, b.resolve right with
      | .var x, .var y => if x = y then some b else b.assign x (.var y)
      | .var x, t => b.assign x t
      | t, .var y => b.assign y t
      | .list xs, .list ys => unifyEach (unifyWithin n) xs ys b
      | s, t => if s.sameConstant t then some b else none := by
  rw [unifyWithin]
  exact if_neg (by simp [hn.1, hn.2])

/-- A variable that is met is bound. -/
theorem unifyWithin_of_meets {y : String} (hw : b.WellFormed) (hn : BothNamed left right)
    (hm : Meets b left right y t) (n : Nat) :
    unifyWithin (n + 1) left right b = b.assign y t := by
  rw [unifyWithin_succ hn]
  cases hm with
  | left hl hr ht =>
    rw [← hw.resolves_iff.1 hl, ← hw.resolves_iff.1 hr]
    cases t with
    | var z => exact if_neg fun h => ht (congrArg Term.var h.symm)
    | _ => rfl
  | right hl hr ht =>
    rw [← hw.resolves_iff.1 hl, ← hw.resolves_iff.1 hr]
    cases t with
    | var z => exact absurd rfl (ht z)
    | _ => rfl

/-- A constant is compared with a constant or a list. -/
theorem unifyWithin_of_constants {s : Term} (hw : b.WellFormed) (hn : BothNamed left right)
    (hl : Resolves b left s) (hr : Resolves b right t) (hs : ∀ x, s ≠ .var x)
    (ht : ∀ x, t ≠ .var x) (hst : ∀ xs ys, s = .list xs → t ≠ .list ys) (n : Nat) :
    unifyWithin (n + 1) left right b = if s.sameConstant t then some b else none := by
  rw [unifyWithin_succ hn, ← hw.resolves_iff.1 hl, ← hw.resolves_iff.1 hr]
  cases s with
  | var x => exact absurd rfl (hs x)
  | list xs =>
    cases t with
    | var y => exact absurd rfl (ht y)
    | list ys => exact absurd rfl (hst xs ys rfl)
    | _ => rfl
  | _ =>
    cases t with
    | var y => exact absurd rfl (ht y)
    | _ => rfl

/-- Solve a problem, going into lists less than `n` deep. -/
def Problem.solveWithin (n : Nat) (b : Bindings) : Problem → Option Bindings
  | pair left right => unifyWithin n left right b
  | each lefts rights => unifyEach (unifyWithin n) lefts rights b

/-- To go into one pair is to go at least one level deep. -/
theorem Problem.exists_solveWithin_pair {result : Option Bindings} {m : Nat}
    (h : ∀ n, m ≤ n → unifyWithin (n + 1) left right b = result) :
    ∃ m, ∀ n, m ≤ n → (pair left right).solveWithin n b = result := by
  refine ⟨m + 1, fun n hn => ?_⟩
  obtain ⟨k, rfl⟩ : ∃ k, n = k + 1 := ⟨n - 1, by omega⟩
  exact h k (by omega)

/-- What a run ends with is what is found when going deep enough. -/
theorem Unifying.exists_solveWithin {p : Problem} {result : Option Bindings}
    (h : Unifying p b result) (hw : b.WellFormed) :
    ∃ m, ∀ n, m ≤ n → p.solveWithin n b = result := by
  induction h with
  | anonymous hn =>
    refine Problem.exists_solveWithin_pair (m := 0) fun n _ => ?_
    rw [unifyWithin, if_pos]
    rw [Bool.or_eq_true]
    by_contra hc
    rw [not_or, Bool.not_eq_true, Bool.not_eq_true] at hc
    exact hn hc
  | same hn hl hr =>
    refine Problem.exists_solveWithin_pair (m := 0) fun n _ => ?_
    rw [unifyWithin_succ hn, ← hw.resolves_iff.1 hl, ← hw.resolves_iff.1 hr]
    exact if_pos rfl
  | bind hn hm ho =>
    refine Problem.exists_solveWithin_pair (m := 0) fun n _ => ?_
    rw [unifyWithin_of_meets hw hn hm, Bindings.assign, ← ho.eq_occurs hw]
    rfl
  | occursCheck hn hm ho =>
    refine Problem.exists_solveWithin_pair (m := 0) fun n _ => ?_
    rw [unifyWithin_of_meets hw hn hm, Bindings.assign, ← ho.eq_occurs hw]
    rfl
  | lists hn hl hr _ _ ih =>
    obtain ⟨m, hm⟩ := ih hw
    refine Problem.exists_solveWithin_pair (m := m) fun n hmn => ?_
    rw [unifyWithin_succ hn, ← hw.resolves_iff.1 hl, ← hw.resolves_iff.1 hr]
    exact hm n hmn
  | lengths hn hl hr hlen =>
    refine Problem.exists_solveWithin_pair (m := 0) fun n _ => ?_
    rw [unifyWithin_succ hn, ← hw.resolves_iff.1 hl, ← hw.resolves_iff.1 hr]
    exact unifyEach_eq_none hlen
  | constants hn hl hr hs ht hst =>
    refine Problem.exists_solveWithin_pair (m := 0) fun n _ => ?_
    exact unifyWithin_of_constants hw hn hl hr hs ht hst n
  | done => exact ⟨0, fun _ _ => rfl⟩
  | next first _ ih₁ ih₂ =>
    obtain ⟨m₁, h₁⟩ := ih₁ hw
    obtain ⟨m₂, h₂⟩ := ih₂ (first.wellFormed hw rfl).1
    refine ⟨max m₁ m₂, fun n hn => ?_⟩
    have hfirst : unifyWithin n _ _ _ = some _ := h₁ n (by omega)
    simp only [Problem.solveWithin, unifyEach, hfirst]
    exact h₂ n (by omega)
  | stop _ ih =>
    obtain ⟨m, h⟩ := ih hw
    refine ⟨m, fun n hn => ?_⟩
    have hfirst : unifyWithin n _ _ _ = none := h n hn
    simp only [Problem.solveWithin, unifyEach, hfirst]

/-- A problem has one result. -/
theorem Unifying.unique {p : Problem} {result result' : Option Bindings}
    (h : Unifying p b result) (h' : Unifying p b result') (hw : b.WellFormed) :
    result = result' := by
  obtain ⟨m, hm⟩ := h.exists_solveWithin hw
  obtain ⟨m', hm'⟩ := h'.exists_solveWithin hw
  rw [← hm (max m m') (by omega), ← hm' (max m m') (by omega)]

/-- The runs of unification and `unify` agree. -/
theorem unifying_pair_iff {result : Option Bindings} (hw : b.WellFormed) :
    Unifying (.pair left right) b result ↔ result = unify left right b :=
  ⟨fun h => h.unique (unifying_unify hw left right) hw, fun h => h ▸ unifying_unify hw left right⟩

/-- The runs over arguments and `unifyAll` agree, if there are as many on both sides. -/
theorem unifying_each_iff {lefts rights : List Term} {result : Option Bindings}
    (hw : b.WellFormed) (hlen : lefts.length = rights.length) :
    Unifying (.each lefts rights) b result ↔ result = unifyAll lefts rights b :=
  ⟨fun h => h.unique (unifying_unifyAll hw hlen) hw, fun h => h ▸ unifying_unifyAll hw hlen⟩

/-! ## Bindings made by `unify` and `unifyAll` -/

variable {lefts rights : List Term} {b' : Bindings}

/-- Unification keeps bindings well formed and only adds to them. -/
theorem unify_wellFormed (hw : b.WellFormed) (h : unify left right b = some b') :
    b'.WellFormed ∧ b.Extends b' :=
  (unifying_unify hw left right).wellFormed hw h

theorem unifyAll_wellFormed (hw : b.WellFormed) (h : unifyAll lefts rights b = some b') :
    b'.WellFormed ∧ b.Extends b' :=
  (unifying_of_unifyAll hw h).wellFormed hw rfl

end StackLogic.Horn
