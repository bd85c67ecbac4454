import StackLogic.Horn.Bindings
import StackLogic.Proofs.Terms
import Mathlib.Data.Finset.Card
import Mathlib.Logic.Relation

/-!
# Well-formed bindings

Bindings are well formed when no variable is, through any number of bindings, part of its own value,
and when the anonymous variable is neither bound nor the value of a variable. The bound variables can
then be ranked (`Bindings.rank`): a variable has a higher rank than every variable in its value, and
no rank exceeds the number of bound variables. That is why following bindings comes to an end.
-/

namespace StackLogic.Horn

open Relation

namespace Bindings

variable {b b' : Bindings} {x y : String} {t u : Term}

/-! ## Bound variables -/

/-- The bound variables. -/
def keys (b : Bindings) : Finset String := (b.entries.map Prod.fst).toFinset

theorem mem_keys : x ∈ b.keys ↔ ∃ t, b.get? x = some t := by
  unfold keys get?
  induction b.entries with
  | nil => simp
  | cons e rest ih =>
    obtain ⟨z, u⟩ := e
    by_cases hx : x = z
    · simp [hx]
    · have hne : (x == z) = false := by simpa using hx
      simpa [List.lookup_cons, hne, hx] using ih

theorem length_le_entriesWeight (es : List (String × Term)) : es.length ≤ entriesWeight es := by
  induction es with
  | nil => exact Nat.le_refl _
  | cons e rest ih =>
    simp only [List.length_cons, entriesWeight]
    omega

/-- No more variables are bound than the bindings weigh, so the weight is enough depth for walks
along bindings. -/
theorem card_keys_le_weight (b : Bindings) : b.keys.card ≤ b.weight := by
  calc b.keys.card ≤ (b.entries.map Prod.fst).length := List.toFinset_card_le _
    _ = b.entries.length := List.length_map _
    _ ≤ entriesWeight b.entries := length_le_entriesWeight _
    _ = b.weight := b.weight_eq.symm

@[simp] theorem get?_empty (x : String) : empty.get? x = none := rfl

/-- The new variable has its term, and all others what they had. -/
theorem get?_extend (b : Bindings) (x y : String) (t : Term) :
    (b.extend x t).get? y = if y = x then some t else b.get? y := by
  by_cases h : y = x
  · simp [get?, extend, h]
  · have hne : (y == x) = false := by simpa using h
    simp [get?, extend, List.lookup_cons, h, hne]

/-- The second bindings have all bindings of the first. -/
def Extends (b b' : Bindings) : Prop := ∀ x t, b.get? x = some t → b'.get? x = some t

theorem Extends.refl (b : Bindings) : b.Extends b := fun _ _ h => h

theorem Extends.trans {b₁ b₂ b₃ : Bindings} (h₁ : b₁.Extends b₂) (h₂ : b₂.Extends b₃) :
    b₁.Extends b₃ := fun x t h => h₂ x t (h₁ x t h)

/-- Binding a free variable keeps all other bindings. -/
theorem extends_extend (hx : b.get? x = none) (t : Term) : b.Extends (b.extend x t) := by
  intro y u hy
  have hne : y ≠ x := by
    rintro rfl
    rw [hx] at hy
    cases hy
  rw [get?_extend, if_neg hne, hy]

/-! ## The order of the bound variables -/

/-- The value of the first variable mentions the second. -/
def Refers (b : Bindings) (x y : String) : Prop := ∃ t, b.get? x = some t ∧ y ∈ t.variableNames

/-- No variable is part of its own value, and the anonymous variable takes no part in bindings. -/
structure WellFormed (b : Bindings) : Prop where
  /-- No chain of bindings leads from a variable back to it. -/
  acyclic : ∀ x, ¬ TransGen b.Refers x x
  /-- The anonymous variable is free. -/
  anonymous_free : b.get? Term.anonymousName = none
  /-- The anonymous variable is no value. -/
  value_ne_anonymous : ∀ x, b.get? x ≠ some (.var Term.anonymousName)

theorem wellFormed_empty : empty.WellFormed where
  acyclic := by
    intro x h
    obtain ⟨y, ⟨t, ht, _⟩, _⟩ := TransGen.head'_iff.1 h
    simp at ht
  anonymous_free := rfl
  value_ne_anonymous := by simp

open Classical in
/-- How many bound variables can be reached from a variable, the variable itself included. -/
noncomputable def rank (b : Bindings) (x : String) : Nat :=
  (b.keys.filter (ReflTransGen b.Refers x)).card

theorem rank_le_card (b : Bindings) (x : String) : b.rank x ≤ b.keys.card := by
  classical
  exact Finset.card_filter_le _ _

theorem rank_pos (h : b.get? x = some t) : 0 < b.rank x := by
  classical
  refine Finset.card_pos.2 ⟨x, ?_⟩
  exact Finset.mem_filter.2 ⟨mem_keys.2 ⟨t, h⟩, ReflTransGen.refl⟩

/-- The variables in a value have lower rank: everything reached from them is reached from the
bound variable too, and the bound variable itself is not reached from them. -/
theorem WellFormed.rank_lt (hb : b.WellFormed) (h : b.Refers x y) : b.rank y < b.rank x := by
  classical
  refine Finset.card_lt_card ((Finset.ssubset_iff_of_subset ?_).2 ⟨x, ?_, ?_⟩)
  · intro z hz
    obtain ⟨hk, hr⟩ := Finset.mem_filter.1 hz
    exact Finset.mem_filter.2 ⟨hk, hr.head h⟩
  · obtain ⟨t, ht, _⟩ := h
    exact Finset.mem_filter.2 ⟨mem_keys.2 ⟨t, ht⟩, ReflTransGen.refl⟩
  · intro hx
    exact hb.acyclic x (TransGen.head' h (Finset.mem_filter.1 hx).2)

/-- The terms that a variable is bound to mention variables of lower rank only. -/
theorem WellFormed.rank_lt_of_get? (hb : b.WellFormed) (h : b.get? x = some t)
    (hy : y ∈ t.variableNames) : b.rank y < b.rank x :=
  hb.rank_lt ⟨t, h, hy⟩

/-! ## Replacing bound variables -/

/-- Expanding a term replaces its variables by their expansions. -/
theorem expand_eq_subst (b : Bindings) (n : Nat) (t : Term) :
    b.expand n t = t.subst fun x => b.expand n (.var x) := by
  cases n with
  | zero => simp only [expand, Term.subst_self]
  | succ n => rfl

/-- More bindings than the rank of the variables in a term need not be followed. -/
theorem WellFormed.expand_eq (hb : b.WellFormed) {n m : Nat} (t : Term)
    (ht : ∀ x ∈ t.variableNames, b.rank x ≤ n) (hm : n ≤ m) : b.expand m t = b.expand n t := by
  induction n generalizing m t with
  | zero =>
    cases m with
    | zero => rfl
    | succ m =>
      refine (Term.subst_congr t fun x hx => ?_).trans t.subst_self
      cases hg : b.get? x with
      | none => rfl
      | some u => exact absurd (ht x hx) (Nat.not_le.2 (rank_pos hg))
  | succ n ih =>
    obtain ⟨m, rfl⟩ : ∃ k, m = k + 1 := ⟨m - 1, by omega⟩
    refine Term.subst_congr t fun x hx => ?_
    cases hg : b.get? x with
    | none => rfl
    | some u =>
      refine ih u (fun y hy => ?_) (Nat.le_of_succ_le_succ hm)
      exact Nat.le_of_lt_succ (Nat.lt_of_lt_of_le (hb.rank_lt_of_get? hg hy) (ht x hx))

/-- As deep as there are bound variables is deep enough. -/
theorem WellFormed.resolveDeep_eq_expand (hb : b.WellFormed) (t : Term) :
    b.resolveDeep t = b.expand b.keys.card t :=
  hb.expand_eq t (fun x _ => b.rank_le_card x) b.card_keys_le_weight

/-- Deep resolution is the substitution that resolves each variable. -/
theorem resolveDeep_eq_subst (b : Bindings) (t : Term) :
    b.resolveDeep t = t.subst fun x => b.resolveDeep (.var x) :=
  b.expand_eq_subst b.weight t

@[simp] theorem resolveDeep_list (b : Bindings) (items : List Term) :
    b.resolveDeep (.list items) = .list (items.map b.resolveDeep) := by
  rw [resolveDeep_eq_subst, Term.subst_list]
  congr 1
  exact List.map_congr_left fun t _ => (b.resolveDeep_eq_subst t).symm

/-- A free variable stands for itself. -/
theorem resolveDeep_free (h : b.get? x = none) : b.resolveDeep (.var x) = .var x := by
  unfold resolveDeep
  cases b.weight with
  | zero => rfl
  | succ n => simp [expand, h]

/-- A bound variable stands for what its term stands for. -/
theorem WellFormed.resolveDeep_bound (hb : b.WellFormed) (h : b.get? x = some t) :
    b.resolveDeep (.var x) = b.resolveDeep t := by
  have hx : b.rank x ≤ b.weight := (b.rank_le_card x).trans b.card_keys_le_weight
  obtain ⟨n, hn⟩ : ∃ n, b.weight = n + 1 := ⟨b.weight - 1, by have := rank_pos h; omega⟩
  have ht : ∀ y ∈ t.variableNames, b.rank y ≤ n := fun y hy => by
    have := hb.rank_lt_of_get? h hy
    omega
  calc b.resolveDeep (.var x) = b.expand n t := by simp [resolveDeep, hn, expand, h]
    _ = b.resolveDeep t := (hb.expand_eq t ht (by omega)).symm

/-- A free variable that can be reached from a term is left in it when bound variables are
replaced. -/
theorem WellFormed.mem_resolveDeep (hb : b.WellFormed) (hx : b.get? x = none)
    (hy : y ∈ t.variableNames) (h : ReflTransGen b.Refers y x) :
    x ∈ (b.resolveDeep t).variableNames := by
  rw [resolveDeep_eq_subst, Term.mem_variableNames_subst]
  refine ⟨y, hy, ?_⟩
  clear hy
  induction h using ReflTransGen.head_induction_on with
  | refl => simp [resolveDeep_free hx]
  | head hzw _ ih =>
    obtain ⟨u, hu, hw⟩ := hzw
    rw [hb.resolveDeep_bound hu, resolveDeep_eq_subst, Term.mem_variableNames_subst]
    exact ⟨_, hw, ih⟩

/-! ## Binding one more variable -/

/-- A chain of bindings after `x` was bound to `t` is a chain of the old bindings, or it comes to `x`
and goes on from a variable of `t` by old bindings. -/
theorem transGen_extend (hx : b.get? x = none) {z w : String}
    (h : TransGen (b.extend x t).Refers z w) :
    TransGen b.Refers z w ∨
      (ReflTransGen b.Refers z x ∧ ∃ y ∈ t.variableNames, ReflTransGen b.Refers y w) := by
  have hstep : ∀ {v w}, (b.extend x t).Refers v w →
      b.Refers v w ∨ (v = x ∧ w ∈ t.variableNames) := by
    rintro v w ⟨u, hu, hw⟩
    rw [get?_extend] at hu
    split at hu
    next hv => exact Or.inr ⟨hv, by cases hu; exact hw⟩
    next => exact Or.inl ⟨u, hu, hw⟩
  induction h with
  | single h =>
    rcases hstep h with h | ⟨rfl, hw⟩
    · exact Or.inl (TransGen.single h)
    · exact Or.inr ⟨ReflTransGen.refl, _, hw, ReflTransGen.refl⟩
  | tail _ h ih =>
    rcases hstep h with h | ⟨rfl, hw⟩
    · rcases ih with ih | ⟨hzx, y, hy, hyv⟩
      · exact Or.inl (ih.tail h)
      · exact Or.inr ⟨hzx, y, hy, hyv.tail h⟩
    · refine Or.inr ⟨?_, _, hw, ReflTransGen.refl⟩
      rcases ih with ih | ⟨hzx, _⟩
      · exact ih.to_reflTransGen
      · exact hzx

/-- Binding a free variable to a term in which it does not occur keeps bindings well formed. -/
theorem WellFormed.extend (hb : b.WellFormed) (hx : b.get? x = none)
    (hxa : x ≠ Term.anonymousName) (hta : t ≠ .var Term.anonymousName)
    (ho : x ∉ (b.resolveDeep t).variableNames) : (b.extend x t).WellFormed where
  acyclic := by
    intro z h
    rcases transGen_extend hx h with h | ⟨hzx, y, hy, hyz⟩
    · exact hb.acyclic z h
    -- a new cycle passes through `x`, which would then occur in its own value
    · exact ho (hb.mem_resolveDeep hx hy (hyz.trans hzx))
  anonymous_free := by
    rw [get?_extend, if_neg (Ne.symm hxa)]
    exact hb.anonymous_free
  value_ne_anonymous := by
    intro z hz
    rw [get?_extend] at hz
    split at hz
    · exact hta (Option.some.inj hz)
    · exact hb.value_ne_anonymous z hz

end Bindings

end StackLogic.Horn
