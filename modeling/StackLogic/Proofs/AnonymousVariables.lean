import StackLogic.Proofs.NewVariables

/-!
# When `_` is like a new variable

`_` is never bound, so it is not a variable that each occurrence has for itself: once it is part of a
value, `_` matches a new term each time the value is met, where a new variable would stand for one
and the same term. As long as `_` is part of no value, the two are alike. Unification with new
variables then does the same steps, except that it binds new variables where `_` matches something,
and that a free variable may be bound to a new one, which takes its place. The relation `Follows`
between the bindings on both sides is kept by each of these steps, and so by every run
(`Unifying.exists_nameHoles`).
-/

namespace StackLogic.Horn

open Bindings Term

variable {b b' b₁ : Bindings} {t u v l : Term} {x z : String}

/-! ## Following bindings after one more is made -/

/-- A binding of another variable does not change what a term resolves to. -/
theorem Bindings.Resolves.extend_of_ne (h : Resolves b t u) (hz : b.get? z = none)
    (hu : u ≠ .var z) : Resolves (b.extend z v) t u := by
  induction h with
  | bound hg _ ih => exact .bound (extends_extend hz v _ _ hg) (ih hu)
  | @free x hx =>
    refine .free ?_
    rw [get?_extend, if_neg fun hxz => hu (congrArg Term.var hxz)]
    exact hx
  | value ht => exact .value ht

/-- A term that resolves to the new variable now resolves to what its term does. -/
theorem Bindings.Resolves.extend_of_eq (h : Resolves b t (.var z))
    (hv : Resolves (b.extend z v) v u) : Resolves (b.extend z v) t u := by
  have hz : b.get? z = none := h.get?_eq_none
  generalize hend : Term.var z = w at h
  induction h with
  | bound hg _ ih => exact .bound (extends_extend hz v _ _ hg) (ih hend)
  | free =>
    cases hend
    refine .bound ?_ hv
    rw [get?_extend, if_pos rfl]
  | value ht => exact absurd hend.symm (ht z)

/-- Only a variable is followed. -/
theorem Bindings.Resolves.eq_of_ne_var (h : Resolves b t u) (ht : ∀ x, t ≠ .var x) : u = t :=
  h.unique (.value ht)

theorem Bindings.WellFormed.occurs_of_not_mem (hb : b.WellFormed)
    (h : x ∉ (b.resolveDeep t).variableNames) : Occurs b x t false := by
  have hoccurs := hb.occurs_occurs x t
  rwa [Bool.eq_false_iff.2 fun htrue => h (occurs_eq_true.1 htrue)] at hoccurs

/-! ## Names that are there from the start -/

/-- The name is neither `_` nor one of the new names. -/
def OldName (fresh : Nat → String) (x : String) : Prop := x ≠ anonymousName ∧ ∀ i, x ≠ fresh i

/-- All variables of the term have old names. -/
def Term.Old (fresh : Nat → String) (t : Term) : Prop := ∀ x ∈ t.variableNames, OldName fresh x

variable {fresh : Nat → String} {ρ : String → String} {U U' : Nat → Prop} {k m i : Nat}

theorem Term.old_of_named (hnamed : t.Named) (hapart : t.Apart fresh) : t.Old fresh := by
  intro x hx
  refine ⟨?_, ?_⟩
  · rintro rfl
    exact hnamed hx
  · rintro i rfl
    exact hapart i hx

theorem Term.Old.named (h : t.Old fresh) : t.Named := fun hmem => (h _ hmem).1 rfl

theorem Term.Old.apart (h : t.Old fresh) : t.Apart fresh := fun i hmem => (h _ hmem).2 i rfl

theorem Term.old_list {items : List Term} : (list items).Old fresh ↔ ∀ t ∈ items, t.Old fresh := by
  simp only [Old, mem_variableNames_list]
  constructor
  · intro h t ht x hx
    exact h x ⟨t, ht, hx⟩
  · rintro h x ⟨t, ht, hx⟩
    exact h t ht x hx

theorem Bindings.All.imp {P Q : Term → Prop} (h : b.All P) (hPQ : ∀ t, P t → Q t) : b.All Q :=
  fun x t hx => (h x t hx).imp (hPQ _) (hPQ _)

theorem Bindings.All.old_resolveDeep (hb : b.All (Old fresh)) (ht : t.Old fresh) :
    (b.resolveDeep t).Old fresh := by
  have hnamed : b.All Named := hb.imp fun _ => Old.named
  refine old_of_named (hnamed.not_mem_resolveDeep ht.named) fun i => ?_
  have happart : b.All fun u => fresh i ∉ u.variableNames := hb.imp fun _ hu => hu.apart i
  exact happart.not_mem_resolveDeep (ht.apart i)

/-! ## Bindings that follow others -/

/-- What becomes of a term that a variable resolves to: a free variable has another name. -/
def relabel (ρ : String → String) : Term → Term
  | .var y => .var (ρ y)
  | t => t

/-- Under the second bindings, each old variable resolves to the same term as under the first, or to
the new name of the same free variable. The names with the numbers in `U` have not been used. -/
structure Follows (fresh : Nat → String) (ρ : String → String) (U : Nat → Prop) (b b' : Bindings) :
    Prop where
  wellFormed : b'.WellFormed
  old : b.All (Old fresh)
  injective : ∀ x y, OldName fresh x → OldName fresh y → ρ x = ρ y → x = y
  resolves : ∀ x u, OldName fresh x → Resolves b (.var x) u → Resolves b' (.var x) (relabel ρ u)
  unused : ∀ i, U i → b'.All fun t => fresh i ∉ t.variableNames
  name_ne : ∀ i, U i → ∀ x, OldName fresh x → ρ x ≠ fresh i

theorem follows_empty : Follows fresh id (fun _ => True) .empty .empty where
  wellFormed := wellFormed_empty
  old := all_empty _
  injective := fun _ _ _ _ h => h
  resolves := by
    intro x u _ h
    cases h with
    | bound hg => cases hg
    | free hx => exact .free hx
    | value ht => exact absurd rfl (ht x)
  unused := fun _ _ => all_empty _
  name_ne := fun i _ _ hx => hx.2 i

namespace Follows

theorem mono (h : Follows fresh ρ U b b') (hU : ∀ i, U' i → U i) : Follows fresh ρ U' b b' :=
  { h with unused := fun i hi => h.unused i (hU i hi), name_ne := fun i hi => h.name_ne i (hU i hi) }

theorem get?_eq_none (h : Follows fresh ρ U b b') (hi : U i) : b'.get? (fresh i) = none := by
  refine Option.eq_none_iff_forall_ne_some.2 fun t ht => ?_
  exact (h.unused i hi _ t ht).1 (mem_variableNames_var.2 rfl)

/-- A term with old names resolves to what it resolves to under the first bindings. -/
theorem resolves_old (h : Follows fresh ρ U b b') (ht : t.Old fresh) (hr : Resolves b t u) :
    Resolves b' t (relabel ρ u) := by
  cases t with
  | var x => exact h.resolves x u (ht x (mem_variableNames_var.2 rfl)) hr
  | _ =>
    rw [hr.eq_of_ne_var (by simp)]
    exact .value (by simp)

/-- Replacing bound variables under the second bindings gives what it gives under the first, with
other names for the free variables. -/
theorem resolveDeep_eq (h : Follows fresh ρ U b b') (hb : b.WellFormed) (ht : t.Old fresh) :
    b'.resolveDeep t = (b.resolveDeep t).subst fun x => .var (ρ x) := by
  induction t using hb.resolve_induction with
  | free t y hr =>
    rw [hr.resolveDeep_eq_self hb (by simp),
      (h.resolves_old ht hr).resolveDeep_eq_self h.wellFormed (by simp [relabel])]
    rfl
  | constant t u hr hv hl =>
    have hr' := h.resolves_old ht hr
    rw [hr.resolveDeep_eq_self hb hl]
    cases u with
    | var y => exact absurd rfl (hv y)
    | list items => exact absurd rfl (hl items)
    | atom | num | str => exact hr'.resolveDeep_eq_self h.wellFormed (by simp [relabel])
  | list t items hr ih =>
    have hr' : Resolves b' t (.list items) := h.resolves_old ht hr
    have hitems : ∀ t ∈ items, t.Old fresh :=
      old_list.1 (h.old.of_resolves hr ht)
    rw [hr.resolveDeep_list hb, hr'.resolveDeep_list h.wellFormed, subst_list, List.map_map]
    congr 1
    exact List.map_congr_left fun t ht => ih t ht (hitems t ht)

/-! ### One more binding -/

/-- Different old variables stay different. -/
theorem relabel_ne (h : Follows fresh ρ U b b') (hx : OldName fresh x) (hu : u.Old fresh)
    (hne : u ≠ .var x) : relabel ρ u ≠ .var (ρ x) := by
  intro heq
  cases u with
  | var y =>
    have hy := hu y (mem_variableNames_var.2 rfl)
    exact hne (congrArg Term.var (h.injective y x hy hx (Term.var.inj heq)))
  | _ => cases heq

theorem not_mem_relabel (h : Follows fresh ρ U b b') (hi : U i) (ht : t.Old fresh) :
    fresh i ∉ (relabel ρ t).variableNames := by
  cases t with
  | var y =>
    intro hmem
    exact h.name_ne i hi y (ht y (mem_variableNames_var.2 rfl)) (mem_variableNames_var.1 hmem).symm
  | _ => exact ht.apart i

/-- An old variable is bound under both bindings. -/
theorem bind (h : Follows fresh ρ U b b') (hb : b.WellFormed) (hx : OldName fresh x)
    (hfree : b.get? x = none) (ht : t.Old fresh) (htt : Resolves b t t) (hne : t ≠ .var x)
    (hwf : (b'.extend (ρ x) (relabel ρ t)).WellFormed) :
    Follows fresh ρ U (b.extend x t) (b'.extend (ρ x) (relabel ρ t)) := by
  have hx' : Resolves b' (.var x) (.var (ρ x)) := h.resolves x _ hx (.free hfree)
  have hfree' : b'.get? (ρ x) = none := hx'.get?_eq_none
  have hvalue : Resolves (b'.extend (ρ x) (relabel ρ t)) (relabel ρ t) (relabel ρ t) :=
    (h.resolves_old ht htt).resolves_self.extend_of_ne hfree' (h.relabel_ne hx ht hne)
  refine
    { wellFormed := hwf
      old := h.old.extend (fun y hy => (mem_variableNames_var.1 hy) ▸ hx) ht
      injective := h.injective
      resolves := fun y u hy hu => ?_
      unused := fun i hi => (h.unused i hi).extend ?_ (h.not_mem_relabel hi ht)
      name_ne := h.name_ne }
  · have hw := hb.resolves_resolve (.var y)
    have hold : (b.resolve (.var y)).Old fresh :=
      h.old.of_resolves hw fun z hz => (mem_variableNames_var.1 hz) ▸ hy
    by_cases hwx : b.resolve (.var y) = .var x
    · rw [hwx] at hw
      have hwt := hw.extend_of_eq (htt.extend_of_ne hfree hne)
      rw [hu.unique hwt]
      exact (h.resolves y _ hy hw).extend_of_eq hvalue
    · rw [hu.unique (hw.extend_of_ne hfree hwx)]
      exact (h.resolves y _ hy hw).extend_of_ne hfree' (h.relabel_ne hx hold hwx)
  · intro hmem
    exact h.name_ne i hi x hx (mem_variableNames_var.1 hmem).symm

/-- A new variable is bound; under the first bindings nothing is. -/
theorem bind_new (h : Follows fresh ρ U b b') (hi : U i)
    (hwf : (b'.extend (fresh i) t).WellFormed)
    (hU : ∀ j, U' j → U j ∧ fresh i ≠ fresh j ∧ fresh j ∉ t.variableNames) :
    Follows fresh ρ U' b (b'.extend (fresh i) t) where
  wellFormed := hwf
  old := h.old
  injective := h.injective
  resolves := by
    intro y u hy hu
    refine (h.resolves y u hy hu).extend_of_ne (h.get?_eq_none hi) fun heq => ?_
    have hold : u.Old fresh := h.old.of_resolves hu fun z hz => (mem_variableNames_var.1 hz) ▸ hy
    have hnot := h.not_mem_relabel hi hold
    rw [heq] at hnot
    exact hnot (mem_variableNames_var.2 rfl)
  unused := by
    intro j hj
    obtain ⟨hUj, hne, hmem⟩ := hU j hj
    exact (h.unused j hUj).extend (fun hz => hne (mem_variableNames_var.1 hz).symm) hmem
  name_ne := fun j hj => h.name_ne j (hU j hj).1

/-- A free variable is bound to a new one, which takes its place; under the first bindings nothing
is bound. -/
theorem bind_to_new (h : Follows fresh ρ U b b') (hi : U i) (hz : b'.get? z = none)
    (hzi : z ≠ fresh i) (hwf : (b'.extend z (.var (fresh i))).WellFormed)
    (hU : ∀ j, U' j → U j ∧ fresh i ≠ fresh j ∧ z ≠ fresh j) :
    Follows fresh (fun x => if ρ x = z then fresh i else ρ x) U' b
      (b'.extend z (.var (fresh i))) where
  wellFormed := hwf
  old := h.old
  injective := by
    intro x y hx hy heq
    split at heq
    next hxz =>
      split at heq
      next hyz => exact h.injective x y hx hy (hxz.trans hyz.symm)
      next => exact absurd heq.symm (h.name_ne i hi y hy)
    next =>
      split at heq
      next => exact absurd heq (h.name_ne i hi x hx)
      next => exact h.injective x y hx hy heq
  resolves := by
    intro y u hy hu
    have hu' := h.resolves y u hy hu
    cases u with
    | var x =>
      simp only [relabel] at hu' ⊢
      split
      next hxz =>
        rw [hxz] at hu'
        refine hu'.extend_of_eq (.free ?_)
        rw [get?_extend, if_neg (Ne.symm hzi)]
        exact h.get?_eq_none hi
      next hxz => exact hu'.extend_of_ne hz fun heq => hxz (Term.var.inj heq)
    | _ => exact hu'.extend_of_ne hz (by simp [relabel])
  unused := by
    intro j hj
    obtain ⟨hUj, hne, hzj⟩ := hU j hj
    refine (h.unused j hUj).extend ?_ ?_
    · exact fun hmem => hzj (mem_variableNames_var.1 hmem).symm
    · exact fun hmem => hne (mem_variableNames_var.1 hmem).symm
  name_ne := by
    intro j hj x hx
    obtain ⟨hUj, hne, -⟩ := hU j hj
    split
    · exact hne
    · exact h.name_ne j hUj x hx

end Follows

/-! ## Unification with new variables -/

/-- How often `_` occurs on the left. -/
def Problem.leftHoles : Problem → Nat
  | .pair left _ => left.holes
  | .each lefts _ => holesAll lefts

/-- How often `_` occurs on the right. -/
def Problem.rightHoles : Problem → Nat
  | .pair _ right => right.holes
  | .each _ rights => holesAll rights

/-- Replace every `_` by a variable of its own; the numbers of the names begin with `k` on the left
and with `m` on the right. -/
def Problem.nameHoles (fresh : Nat → String) (k m : Nat) : Problem → Problem
  | .pair left right => .pair (left.nameHoles fresh k) (right.nameHoles fresh m)
  | .each lefts rights => .each (nameHolesAll fresh k lefts) (nameHolesAll fresh m rights)

/-- The name with the number is used for a `_`. -/
def Problem.Uses (p : Problem) (k m i : Nat) : Prop :=
  (k ≤ i ∧ i < k + p.leftHoles) ∨ (m ≤ i ∧ i < m + p.rightHoles)

theorem Term.isAnonymous_nameHoles (hfresh : ∀ i, fresh i ≠ anonymousName) (t : Term) :
    (t.nameHoles fresh k).isAnonymous = false := by
  refine isAnonymous_eq_false.2 fun heq => ?_
  have hnamed := named_nameHoles (t := t) (k := k) hfresh
  rw [heq] at hnamed
  exact named_var.1 hnamed rfl

theorem Term.nameHoles_ne_var (ht : ∀ x, t ≠ .var x) (x : String) :
    t.nameHoles fresh k ≠ .var x := by
  cases t with
  | var y => exact absurd rfl (ht y)
  | _ => simp [nameHoles]

theorem Term.length_nameHolesAll (ts : List Term) :
    (nameHolesAll fresh k ts).length = ts.length := by
  induction ts generalizing k with
  | nil => rfl
  | cons t rest ih => rw [nameHolesAll, List.length_cons, List.length_cons, ih]

/-- A new name that a term does not use is not in it. -/
theorem Term.Apart.not_mem_nameHoles (h : t.Apart fresh) (hinj : Function.Injective fresh)
    (hi : ¬ (k ≤ i ∧ i < k + t.holes)) : fresh i ∉ (t.nameHoles fresh k).variableNames := by
  intro hmem
  rcases mem_variableNames_nameHoles hmem with ⟨hold, -⟩ | ⟨j, hk, hj, heq⟩
  · exact h i hold
  · rw [hinj heq] at hi
    exact hi ⟨hk, hj⟩

namespace Follows

/-- With its `_` named, a term resolves to what it resolves to under the first bindings, if there is
no `_` in that. -/
theorem resolves_nameHoles (h : Follows fresh ρ U b b') (hl : l.Apart fresh)
    (hne : l ≠ .var anonymousName) (hr : Resolves b l u) (hu : u.Named) :
    Resolves b' (l.nameHoles fresh k) (relabel ρ u) := by
  have hnamed : l.Named := by
    cases l with
    | var x => exact named_var.2 fun hx => hne (congrArg Term.var hx)
    | _ => rwa [hr.eq_of_ne_var (by simp)] at hu
  rw [nameHoles_eq_self hnamed]
  exact h.resolves_old (old_of_named hnamed hl) hr

/-- With its `_` named, a term that resolves to a value resolves to this value with its `_` named. -/
theorem resolves_value (h : Follows fresh ρ U b b') (hl : l.Apart fresh)
    (hne : l ≠ .var anonymousName) (hr : Resolves b l u) (hu : ∀ x, u ≠ .var x) :
    Resolves b' (l.nameHoles fresh k) (u.nameHoles fresh k) ∧ u.holes ≤ l.holes := by
  cases l with
  | var x =>
    have hx : (Term.var x).Named := named_var.2 fun hx => hne (congrArg Term.var hx)
    have hold := h.old.of_resolves hr (old_of_named hx hl)
    have hr' := h.resolves_nameHoles hl hne hr hold.named (k := k)
    rw [nameHoles_eq_self hold.named, holes_eq_zero hold.named]
    refine ⟨?_, Nat.zero_le _⟩
    cases u with
    | var y => exact absurd rfl (hu y)
    | _ => exact hr'
  | _ =>
    rw [hr.eq_of_ne_var (by simp)]
    exact ⟨.value (nameHoles_ne_var (by simp)), Nat.le_refl _⟩

theorem not_occurs (h : Follows fresh ρ U b b') (hi : U i) (ht : fresh i ∉ t.variableNames) :
    Occurs b' (fresh i) t false :=
  h.wellFormed.occurs_of_not_mem ((h.unused i hi).not_mem_resolveDeep ht)

/-- An unused name that is not in a term is not in what the term resolves to. -/
theorem not_mem_of_resolves (h : Follows fresh ρ U b b') (hi : U i) (hr : Resolves b' t u)
    (ht : fresh i ∉ t.variableNames) : fresh i ∉ u.variableNames :=
  (h.unused i hi).of_resolves hr ht

/-- A new variable unifies with a term in which it is not. -/
theorem unify_new_left (h : Follows fresh ρ U b b') (hfresh : ∀ i, fresh i ≠ anonymousName)
    (hi : U i) (ht : fresh i ∉ t.variableNames) (hta : t.isAnonymous = false)
    (hU : ∀ j, U' j → U j ∧ fresh i ≠ fresh j ∧ fresh j ∉ t.variableNames) :
    ∃ b₁, Unifying (.pair (.var (fresh i)) t) b' (some b₁) ∧ Follows fresh ρ U' b b₁ := by
  have hvar : (Term.var (fresh i)).isAnonymous = false :=
    isAnonymous_eq_false.2 fun heq => hfresh i (Term.var.inj heq)
  have hvalue := h.wellFormed.resolves_resolve t
  have hnot := h.not_mem_of_resolves hi hvalue ht
  have hmeets : Meets b' (.var (fresh i)) t (fresh i) (b'.resolve t) := by
    refine .left (.free (h.get?_eq_none hi)) hvalue fun heq => ?_
    rw [heq] at hnot
    exact hnot (mem_variableNames_var.2 rfl)
  have hrun := Unifying.bind ⟨hvar, hta⟩ hmeets (h.not_occurs hi hnot)
  refine ⟨_, hrun, h.bind_new hi (hrun.wellFormed h.wellFormed rfl).1 fun j hj => ?_⟩
  obtain ⟨hUj, hne, hmem⟩ := hU j hj
  exact ⟨hUj, hne, h.not_mem_of_resolves hUj hvalue hmem⟩

/-- So does a term with a new variable on the right; a free variable is then bound to the new one. -/
theorem unify_new_right (h : Follows fresh ρ U b b') (hfresh : ∀ i, fresh i ≠ anonymousName)
    (hi : U i) (ht : fresh i ∉ t.variableNames) (hta : t.isAnonymous = false)
    (hU : ∀ j, U' j → U j ∧ fresh i ≠ fresh j ∧ fresh j ∉ t.variableNames) :
    ∃ ρ' b₁, Unifying (.pair t (.var (fresh i))) b' (some b₁) ∧ Follows fresh ρ' U' b b₁ := by
  have hvar : (Term.var (fresh i)).isAnonymous = false :=
    isAnonymous_eq_false.2 fun heq => hfresh i (Term.var.inj heq)
  have hnew : Resolves b' (.var (fresh i)) (.var (fresh i)) := .free (h.get?_eq_none hi)
  obtain ⟨u, hvalue⟩ : ∃ u, Resolves b' t u := ⟨_, h.wellFormed.resolves_resolve t⟩
  have hnot := h.not_mem_of_resolves hi hvalue ht
  by_cases hu : ∃ z, u = .var z
  · obtain ⟨z, rfl⟩ := hu
    have hne : fresh i ≠ z := fun heq => hnot (mem_variableNames_var.2 heq)
    have hmeets : Meets b' t (.var (fresh i)) z (.var (fresh i)) :=
      .left hvalue hnew fun heq => hne (Term.var.inj heq)
    have hoccurs : Occurs b' z (.var (fresh i)) false := by
      refine h.wellFormed.occurs_of_not_mem ?_
      rw [resolveDeep_free (h.get?_eq_none hi), mem_variableNames_var]
      exact fun heq => hne heq.symm
    have hrun := Unifying.bind ⟨hta, hvar⟩ hmeets hoccurs
    refine ⟨_, _, hrun, h.bind_to_new hi hvalue.get?_eq_none (Ne.symm hne)
      (hrun.wellFormed h.wellFormed rfl).1 fun j hj => ?_⟩
    obtain ⟨hUj, hij, hmem⟩ := hU j hj
    have hz := h.not_mem_of_resolves hUj hvalue hmem
    exact ⟨hUj, hij, fun heq => hz (mem_variableNames_var.2 heq.symm)⟩
  · have hmeets : Meets b' t (.var (fresh i)) (fresh i) u :=
      .right hvalue hnew fun z hz => hu ⟨z, hz⟩
    have hrun := Unifying.bind ⟨hta, hvar⟩ hmeets (h.not_occurs hi hnot)
    refine ⟨_, _, hrun, h.bind_new hi (hrun.wellFormed h.wellFormed rfl).1 fun j hj => ?_⟩
    obtain ⟨hUj, hij, hmem⟩ := hU j hj
    exact ⟨hUj, hij, h.not_mem_of_resolves hUj hvalue hmem⟩

/-- An old variable meets the same term under both bindings. -/
theorem unify_meets {left right : Term} (h : Follows fresh ρ U b b') (hb : b.WellFormed)
    (hfresh : ∀ i, fresh i ≠ anonymousName) (hn : BothNamed left right)
    (hl : left.Apart fresh) (hr : right.Apart fresh) (hm : Meets b left right x t)
    (ho : Occurs b x t false) (ht : t.Named) :
    ∃ b₁, Unifying (.pair (left.nameHoles fresh k) (right.nameHoles fresh m)) b' (some b₁) ∧
      Follows fresh ρ U (b.extend x t) b₁ := by
  have happart : b.All (Apart fresh) := h.old.imp fun _ => Old.apart
  obtain ⟨hxapart, htapart⟩ := hm.all happart hl hr
  have hxnamed : (Term.var x).Named := named_var.2 (hm.ne_anonymous hb hn).1
  have hx : OldName fresh x :=
    old_of_named hxnamed hxapart x (mem_variableNames_var.2 rfl)
  have htold : t.Old fresh := old_of_named ht htapart
  have hleft := isAnonymous_eq_false.1 hn.1
  have hright := isAnonymous_eq_false.1 hn.2
  have hne := h.relabel_ne hx htold hm.ne_var
  have hmeets : Meets b' (left.nameHoles fresh k) (right.nameHoles fresh m) (ρ x)
      (relabel ρ t) := by
    cases hm with
    | left hxl htr =>
      exact .left (h.resolves_nameHoles hl hleft hxl hxnamed)
        (h.resolves_nameHoles hr hright htr ht) hne
    | right htl hxr hvalue =>
      refine .right (h.resolves_nameHoles hl hleft htl ht)
        (h.resolves_nameHoles hr hright hxr hxnamed) fun y hy => ?_
      cases t with
      | var z => exact hvalue z rfl
      | _ => cases hy
  have hoccurs : Occurs b' (ρ x) (relabel ρ t) false := by
    refine h.wellFormed.occurs_of_not_mem fun hmem => ?_
    rw [(h.resolves_old htold hm.resolves_self).resolveDeep_eq h.wellFormed (Extends.refl b'),
      h.resolveDeep_eq hb htold, mem_variableNames_subst] at hmem
    obtain ⟨y, hy, hxy⟩ := hmem
    have hyold := h.old.old_resolveDeep htold y hy
    rw [h.injective x y hx hyold (mem_variableNames_var.1 hxy)] at ho
    exact absurd ((ho.eq_true_iff hb).2 hy) (by simp)
  have hrun := Unifying.bind ⟨isAnonymous_nameHoles hfresh left, isAnonymous_nameHoles hfresh right⟩
    hmeets hoccurs
  exact ⟨_, hrun, h.bind hb hx hm.get?_eq_none htold hm.resolves_self hm.ne_var
    (hrun.wellFormed h.wellFormed rfl).1⟩

end Follows

/-- Constants that count as the same have no `_`. -/
theorem nameHoles_of_sameConstant (fresh : Nat → String) (k m : Nat) {s t : Term}
    (h : s.sameConstant t = true) :
    s.nameHoles fresh k = s ∧ t.nameHoles fresh m = t := by
  cases s with
  | var | list => simp [sameConstant] at h
  | _ =>
    cases t with
    | var | list => simp [sameConstant] at h
    | _ => exact ⟨rfl, rfl⟩

variable {p : Problem} {result : Option Bindings}

/-- If unification succeeds and no value has a `_`, it also succeeds with a new variable in place of
every `_`, and the bindings it makes follow the others. -/
theorem Unifying.exists_nameHoles (h : Unifying p b result) (hinj : Function.Injective fresh)
    (hfresh : ∀ i, fresh i ≠ anonymousName) (hr : result = some b₁) (hnamed : b₁.All Named)
    (hb : b.WellFormed) (hf : Follows fresh ρ U b b') (hp : p.All (Apart fresh))
    (hU : ∀ i, p.Uses k m i → U i)
    (hdisjoint : k + p.leftHoles ≤ m ∨ m + p.rightHoles ≤ k) :
    ∃ ρ' b₁', Unifying (p.nameHoles fresh k m) b' (some b₁') ∧
      Follows fresh ρ' (fun i => U i ∧ ¬ p.Uses k m i) b₁ b₁' := by
  induction h generalizing b₁ b' ρ U k m with
  | @anonymous left right b hn =>
    cases hr
    simp only [Problem.Uses, Problem.leftHoles, Problem.rightHoles] at hU hdisjoint ⊢
    by_cases hleft : left = .var anonymousName
    · have hholes : left.holes = 1 := by rw [hleft, holes_anonymous]
      rw [hholes] at hU hdisjoint ⊢
      have hk : fresh k ∉ (right.nameHoles fresh m).variableNames :=
        hp.2.not_mem_nameHoles hinj (by omega)
      rw [hleft, Problem.nameHoles, nameHoles_anonymous]
      refine ⟨ρ, hf.unify_new_left hfresh (hU k (by omega)) hk (isAnonymous_nameHoles hfresh right)
        fun j hj => ⟨hj.1, fun heq => ?_, hp.2.not_mem_nameHoles hinj (by omega)⟩⟩
      have hkj := hinj heq
      omega
    · have hright : right = .var anonymousName := by
        by_contra hright
        exact hn ⟨isAnonymous_eq_false.2 hleft, isAnonymous_eq_false.2 hright⟩
      have hholes : right.holes = 1 := by rw [hright, holes_anonymous]
      rw [hholes] at hU hdisjoint ⊢
      have hm : fresh m ∉ (left.nameHoles fresh k).variableNames :=
        hp.1.not_mem_nameHoles hinj (by omega)
      rw [hright, Problem.nameHoles, nameHoles_anonymous]
      refine hf.unify_new_right hfresh (hU m (by omega)) hm (isAnonymous_nameHoles hfresh left)
        fun j hj => ⟨hj.1, fun heq => ?_, hp.1.not_mem_nameHoles hinj (by omega)⟩
      have hmj := hinj heq
      omega
  | @same left right b x hn hl hright =>
    cases hr
    have hleftNe := isAnonymous_eq_false.1 hn.1
    have hx : (Term.var x).Named := by
      refine named_var.2 fun heq => ?_
      exact hl.ne_anonymous hb hleftNe (congrArg Term.var heq)
    have hrun : Unifying (.pair (left.nameHoles fresh k) (right.nameHoles fresh m)) b' (some b') :=
      .same ⟨isAnonymous_nameHoles hfresh left, isAnonymous_nameHoles hfresh right⟩
        (hf.resolves_nameHoles hp.1 hleftNe hl hx)
        (hf.resolves_nameHoles hp.2 (isAnonymous_eq_false.1 hn.2) hright hx)
    exact ⟨ρ, b', hrun, hf.mono fun i hi => hi.1⟩
  | @bind left right b x t hn hm ho =>
    cases hr
    have ht : t.Named := (hnamed x t (by rw [get?_extend, if_pos rfl])).2
    obtain ⟨b₁', hrun, hf'⟩ := hf.unify_meets hb hfresh hn hp.1 hp.2 hm ho ht (k := k) (m := m)
    exact ⟨ρ, b₁', hrun, hf'.mono fun i hi => hi.1⟩
  | occursCheck | lengths | stop => cases hr
  | @lists left right b xs ys _ hn hl hright hlen _ ih =>
    have happart : b.All (Apart fresh) := hf.old.imp fun _ => Old.apart
    have hxs := hereditary_apart (happart.of_resolves hl hp.1)
    have hys := hereditary_apart (happart.of_resolves hright hp.2)
    obtain ⟨hl', hlholes⟩ := hf.resolves_value hp.1 (isAnonymous_eq_false.1 hn.1) hl (by simp)
      (k := k)
    obtain ⟨hr', hrholes⟩ := hf.resolves_value hp.2 (isAnonymous_eq_false.1 hn.2) hright (by simp)
      (k := m)
    simp only [holes] at hlholes hrholes
    simp only [Problem.Uses, Problem.leftHoles, Problem.rightHoles] at hU hdisjoint ih ⊢
    obtain ⟨ρ', b₁', hrun, hf'⟩ := ih hr hnamed hb hf ⟨hxs, hys⟩ (k := k) (m := m)
      (fun i hi => hU i (by omega)) (by omega)
    refine ⟨ρ', b₁', ?_, hf'.mono fun i hi => ⟨hi.1, by omega⟩⟩
    refine .lists ⟨isAnonymous_nameHoles hfresh left, isAnonymous_nameHoles hfresh right⟩ hl' hr' ?_
      hrun
    rw [length_nameHolesAll, length_nameHolesAll, hlen]
  | @constants left right s t b hn hl hright hs ht hst =>
    split at hr
    next hsame =>
      cases hr
      obtain ⟨hs', ht'⟩ := nameHoles_of_sameConstant fresh k m hsame
      have hl' := (hf.resolves_value hp.1 (isAnonymous_eq_false.1 hn.1) hl hs (k := k)).1
      have hr' := (hf.resolves_value hp.2 (isAnonymous_eq_false.1 hn.2) hright ht (k := m)).1
      rw [hs'] at hl'
      rw [ht'] at hr'
      have hrun := Unifying.constants ⟨isAnonymous_nameHoles hfresh left,
        isAnonymous_nameHoles hfresh right⟩ hl' hr' hs ht hst
      rw [if_pos hsame] at hrun
      exact ⟨ρ, b', hrun, hf.mono fun i hi => hi.1⟩
    next => cases hr
  | done =>
    cases hr
    exact ⟨ρ, b', .done, hf.mono fun i hi => hi.1⟩
  | @next x y xs ys b bm result first rest ih₁ ih₂ =>
    obtain ⟨⟨hx, hxs⟩, ⟨hy, hys⟩⟩ := And.imp List.forall_mem_cons.1 List.forall_mem_cons.1 hp
    have hbm := (first.wellFormed hb rfl).1
    have hbm_named : bm.All Named := fun z t hz => hnamed z t ((rest.wellFormed hbm hr).2 z t hz)
    simp only [Problem.Uses, Problem.leftHoles, Problem.rightHoles] at hU hdisjoint ih₁ ih₂ ⊢
    simp only [holesAll] at hU hdisjoint ⊢
    obtain ⟨ρ₁, bm', hfirst, hf₁⟩ := ih₁ rfl hbm_named hb hf ⟨hx, hy⟩ (k := k) (m := m)
      (fun i hi => hU i (by omega)) (by omega)
    obtain ⟨ρ₂, b₁', hrest, hf₂⟩ := ih₂ hr hnamed hbm hf₁ ⟨hxs, hys⟩ (k := k + x.holes)
      (m := m + y.holes) (fun i hi => ⟨hU i (by omega), by omega⟩) (by omega)
    exact ⟨ρ₂, b₁', .next hfirst hrest, hf₂.mono fun i hi => ⟨⟨hi.1, by omega⟩, by omega⟩⟩

/-! ## Conjunctions of equations -/

variable {equations : List (Term × Term)}

/-- Equations that unify do so with new variables in the place of `_`. -/
theorem exists_unifyPairs_named (h : unifyPairs equations b = some b₁)
    (hinj : Function.Injective fresh) (hfresh : ∀ i, fresh i ≠ anonymousName)
    (hnamed : b₁.All Named) (hb : b.WellFormed) (hf : Follows fresh ρ U b b')
    (hapart : ∀ e ∈ equations, e.1.Apart fresh ∧ e.2.Apart fresh) (hU : ∀ i, k ≤ i → U i) :
    ∃ b₁', unifyPairs (nameEquations fresh k equations) b' = some b₁' := by
  induction equations generalizing b b' ρ U k with
  | nil => exact ⟨b', rfl⟩
  | cons e rest ih =>
    obtain ⟨bm, hfirst, hrest⟩ := unifyPairs_cons h
    obtain ⟨hhead, htail⟩ := List.forall_mem_cons.1 hapart
    obtain ⟨hbm, -⟩ := unify_wellFormed hb hfirst
    have hbm_named : bm.All Named := fun z t hz =>
      hnamed z t ((unifyPairs_wellFormed hrest hbm).2 z t hz)
    have hrun := unifying_unify hb e.1 e.2
    obtain ⟨ρ₁, bm', hrun', hf₁⟩ := hrun.exists_nameHoles hinj hfresh hfirst hbm_named hb hf hhead
      (k := k) (m := k + e.1.holes)
      (fun i hi => hU i (by simp only [Problem.Uses] at hi; omega)) (Or.inl (Nat.le_refl _))
    obtain ⟨b₁', hrest'⟩ := ih hrest hbm hf₁ htail (k := k + e.1.holes + e.2.holes) fun i hi => by
      simp only [Problem.Uses, Problem.leftHoles, Problem.rightHoles]
      exact ⟨hU i (by omega), by omega⟩
    refine ⟨b₁', ?_⟩
    rw [nameEquations, unifyPairs, ← (unifying_pair_iff hf.wellFormed).1 hrun']
    exact hrest'

/-- A conjunction of equations is compared with the one in which every `_` is a new variable. If the
latter has a solution, so has the former, provided that having the same value is an equivalence of
the numbers in the equations. If the former has a solution in which no variable has a value with a
`_`, so has the latter. -/
theorem anonymous_variables_like_new (w : Setting) (n limit : Nat) (s : Tally)
    {fresh : Nat → String} (hinj : Function.Injective fresh)
    (hfresh : ∀ i, fresh i ≠ anonymousName) {equations : List (Term × Term)}
    (hapart : ∀ e ∈ equations, e.1.Apart fresh ∧ e.2.Apart fresh) :
    (Number.Comparable (fun m => ∃ e ∈ equations, m ∈ e.1.numbers ∨ m ∈ e.2.numbers) →
      (∃ b, (w.prover n).Finds limit (conjunction (nameEquations fresh 0 equations)) .empty s b) →
      ∃ b, (w.prover n).Finds limit (conjunction equations) .empty s b) ∧
    ∀ b, (w.prover n).Finds limit (conjunction equations) .empty s b →
      (∀ x t, b.get? x = some t → t.Named) →
      ∃ b', (w.prover n).Finds limit (conjunction (nameEquations fresh 0 equations)) .empty s
        b' := by
  simp only [finds_conjunction_iff, length_nameEquations]
  refine ⟨?_, ?_⟩
  · rintro hN ⟨b, hsteps, hb⟩
    obtain ⟨b', hb'⟩ := exists_unifyPairs_of_named hN (fun e he =>
      ⟨fun m hm => ⟨e, he, Or.inl hm⟩, fun m hm => ⟨e, he, Or.inr hm⟩⟩) hfresh hb
    exact ⟨b', hsteps, hb'⟩
  · rintro b ⟨hsteps, hb⟩ hvalues
    have hwf := (unifyPairs_wellFormed hb wellFormed_empty).1
    have hnamed : b.All Named := by
      refine fun x t hx => ⟨named_var.2 ?_, hvalues x t hx⟩
      rintro rfl
      rw [hwf.anonymous_free] at hx
      cases hx
    obtain ⟨b', hb'⟩ := exists_unifyPairs_named hb hinj hfresh hnamed wellFormed_empty follows_empty
      hapart fun _ _ => trivial
    exact ⟨b', hsteps, hb'⟩

/-- No clauses and the usual limits. -/
def noClauses : Setting := { database := {}, trace := false, limits := {} }

/-- `[X, _] = [a, [_, 1]]` and `[Y, _] = [X, X]`. -/
def openEquations : List (Term × Term) :=
  [(.list [.var "X", .var "_"], .list [.atom "a", .list [.var "_", .num (.int 1)]]),
    (.list [.var "Y", .var "_"], .list [.var "X", .var "X"])]

/-- These equations have a solution in which no value has a `_`, and also one with three new
variables; each of the two is found because the other is. -/
theorem anonymous_variables_like_new_sample :
    nameEquations (freshName · "_") 0 openEquations =
      [(.list [.var "X", .var "_#0"], .list [.atom "a", .list [.var "_#1", .num (.int 1)]]),
        (.list [.var "Y", .var "_#2"], .list [.var "X", .var "X"])] ∧
    (∃ b, (noClauses.prover 0).Finds 2 (conjunction openEquations) .empty ⟨0, 0, {}⟩ b) ∧
    ∃ b, (noClauses.prover 0).Finds 2
      (conjunction (nameEquations (freshName · "_") 0 openEquations)) .empty ⟨0, 0, {}⟩ b := by
  have hinj : Function.Injective (freshName · "_") := fun i j h => (freshName_inj h).1
  have hvars : ∀ e ∈ openEquations, (∀ x ∈ e.1.variableNames, '#' ∉ x.toList) ∧
      ∀ x ∈ e.2.variableNames, '#' ∉ x.toList := by
    decide
  have hapart : ∀ e ∈ openEquations,
      e.1.Apart (freshName · "_") ∧ e.2.Apart (freshName · "_") := by
    intro e he
    obtain ⟨hleft, hright⟩ := hvars e he
    exact ⟨fun i hi => hleft _ hi (hash_mem_freshName i "_"),
      fun i hi => hright _ hi (hash_mem_freshName i "_")⟩
  have hnumbers : Number.Comparable fun m => ∃ e ∈ openEquations,
      m ∈ e.1.numbers ∨ m ∈ e.2.numbers := by
    have hone : ∀ m, (∃ e ∈ openEquations, m ∈ e.1.numbers ∨ m ∈ e.2.numbers) → m = .int 1 := by
      intro m hm
      simpa [openEquations, numbers, numbersAll] using hm
    refine ⟨fun m hm => ?_, fun l m hl hm => ?_, fun l m n hl hm hn => ?_⟩
    · rw [hone m hm]
      decide
    · rw [hone l hl, hone m hm]
      exact id
    · rw [hone l hl, hone m hm, hone n hn]
      exact fun h _ => h
  have hfound : unifyPairs openEquations .empty =
      some ((Bindings.empty.extend "X" (.atom "a")).extend "Y" (.atom "a")) := rfl
  have ha : (Term.atom "a").Named := List.not_mem_nil
  have hall : ((Bindings.empty.extend "X" (.atom "a")).extend "Y" (.atom "a")).All Named :=
    ((all_empty _).extend (named_var.2 (by decide)) ha).extend (named_var.2 (by decide)) ha
  obtain ⟨hback, hforth⟩ := anonymous_variables_like_new noClauses 0 2 ⟨0, 0, {}⟩ hinj
    (fun i => freshName_ne_anonymousName i "_") hapart
  have hnamed := hforth _ (finds_conjunction_iff.2 ⟨by decide, hfound⟩) fun x t hx => (hall x t hx).2
  exact ⟨rfl, hback hnumbers hnamed, hnamed⟩

/-- With the equations `X = [_], X = [a], X = [b]`, `_` is not like a new variable. -/
theorem anonymous_variable_matches_twice :
    (∃ b, (noClauses.prover 0).Finds 10 (conjunction
      [(.var "X", .list [.var "_"]), (.var "X", .list [.atom "a"]), (.var "X", .list [.atom "b"])])
      .empty ⟨0, 0, {}⟩ b) ∧
    ¬ ∃ b, (noClauses.prover 0).Finds 10 (conjunction
      [(.var "X", .list [.var "_1"]), (.var "X", .list [.atom "a"]), (.var "X", .list [.atom "b"])])
      .empty ⟨0, 0, {}⟩ b := by
  simp only [finds_conjunction_iff]
  constructor
  · exact ⟨_, by decide, rfl⟩
  · rintro ⟨b, -, h⟩
    have hnone : unifyPairs [(.var "X", .list [.var "_1"]), (.var "X", .list [.atom "a"]),
        (.var "X", .list [.atom "b"])] .empty = none := rfl
    rw [hnone] at h
    cases h

end StackLogic.Horn
