import StackLogic.Horn.Term
import Mathlib.Data.List.Basic

/-!
# Variables and substitution

The variables of a term are the members of `Term.variableNames`. What a substitution does to a term
depends on them alone (`Term.subst_congr`), and substitutions compose (`Term.subst_subst`).
-/

namespace StackLogic.Horn

namespace Term

/-- Induction over terms, with the hypothesis for all elements of a list at once. -/
@[elab_as_elim, induction_eliminator]
theorem induct {motive : Term → Prop} (var : ∀ name, motive (.var name))
    (atom : ∀ name, motive (.atom name)) (num : ∀ n, motive (.num n)) (str : ∀ s, motive (.str s))
    (list : ∀ items, (∀ t ∈ items, motive t) → motive (.list items)) (t : Term) : motive t :=
  match t with
  | .var name => var name
  | .atom name => atom name
  | .num n => num n
  | .str s => str s
  | .list items => list items fun u _ => induct var atom num str list u

/-! ## Variables -/

theorem mem_addName {x y : String} {names : List String} :
    x ∈ addName names y ↔ x ∈ names ∨ x = y := by
  unfold addName
  split
  next h => exact ⟨Or.inl, fun hx => hx.elim id fun e => e ▸ h⟩
  next => simp

theorem addVariablesAll_eq_foldl (names : List String) (ts : List Term) :
    addVariablesAll names ts = ts.foldl addVariables names := by
  induction ts generalizing names with
  | nil => rfl
  | cons t rest ih => simp [addVariablesAll, ih]

/-- Collecting names along a list, when each element adds exactly the names that `has` tells. -/
theorem mem_foldl_names {α : Type} {add : List String → α → List String} {has : α → Prop}
    {x : String} (as : List α) (h : ∀ a ∈ as, ∀ names, x ∈ add names a ↔ x ∈ names ∨ has a)
    (names : List String) : x ∈ as.foldl add names ↔ x ∈ names ∨ ∃ a ∈ as, has a := by
  induction as generalizing names with
  | nil => simp
  | cons a rest ih =>
    rw [List.foldl_cons, ih fun c hc => h c (List.mem_cons_of_mem _ hc), h a List.mem_cons_self]
    simp [or_assoc]

/-- Collecting the variables of a term adds them to the names, whatever these are. -/
theorem mem_addVariables {x : String} (t : Term) (names : List String) :
    x ∈ t.addVariables names ↔ x ∈ names ∨ x ∈ t.variableNames := by
  induction t generalizing names with
  | var name => simp [variableNames, addVariables, mem_addName]
  | atom | num | str => simp [variableNames, addVariables]
  | list items ih =>
    simp only [variableNames, addVariables, addVariablesAll_eq_foldl]
    rw [mem_foldl_names items ih, mem_foldl_names items ih]
    simp

@[simp] theorem mem_variableNames_var {x name : String} :
    x ∈ (var name).variableNames ↔ x = name := by
  simp [variableNames, addVariables, mem_addName]

@[simp] theorem variableNames_atom (name : String) : (atom name).variableNames = [] := rfl

@[simp] theorem variableNames_num (n : Number) : (num n).variableNames = [] := rfl

@[simp] theorem variableNames_str (s : String) : (str s).variableNames = [] := rfl

@[simp] theorem mem_variableNames_list {x : String} {items : List Term} :
    x ∈ (list items).variableNames ↔ ∃ t ∈ items, x ∈ t.variableNames := by
  simp only [variableNames, addVariables, addVariablesAll_eq_foldl]
  rw [mem_foldl_names items fun t _ => mem_addVariables t]
  simp [variableNames]

/-- The search for a variable finds one that occurs in the term. -/
theorem anyVar_eq_true {p : String → Bool} (t : Term) :
    t.anyVar p = true ↔ ∃ x ∈ t.variableNames, p x = true := by
  induction t with
  | var name => simp [anyVar]
  | atom | num | str => simp [anyVar]
  | list items ih =>
    simp only [anyVar, anyVarAll_eq_any, List.any_eq_true, mem_variableNames_list]
    constructor
    · rintro ⟨t, ht, h⟩
      obtain ⟨x, hx, hp⟩ := (ih t ht).1 h
      exact ⟨x, ⟨t, ht, hx⟩, hp⟩
    · rintro ⟨x, ⟨t, ht, hx⟩, hp⟩
      exact ⟨t, ht, (ih t ht).2 ⟨x, hx, hp⟩⟩

/-! ## Weight -/

theorem weight_le_weightAll {t : Term} {ts : List Term} (h : t ∈ ts) :
    t.weight ≤ weightAll ts := by
  induction ts with
  | nil => cases h
  | cons u rest ih =>
    rw [weightAll]
    rcases List.mem_cons.1 h with rfl | h
    · exact Nat.le_add_right _ _
    · exact Nat.le_trans (ih h) (Nat.le_add_left _ _)

theorem weight_lt_list {t : Term} {items : List Term} (h : t ∈ items) :
    t.weight < (list items).weight := by
  have hle := weight_le_weightAll h
  rw [weight]
  omega

/-! ## Substitution -/

@[simp] theorem subst_var (f : String → Term) (name : String) : (var name).subst f = f name := rfl

@[simp] theorem subst_atom (f : String → Term) (name : String) :
    (atom name).subst f = atom name := rfl

@[simp] theorem subst_num (f : String → Term) (n : Number) : (num n).subst f = num n := rfl

@[simp] theorem subst_str (f : String → Term) (s : String) : (str s).subst f = str s := rfl

@[simp] theorem subst_list (f : String → Term) (items : List Term) :
    (list items).subst f = list (items.map (subst f)) := by
  rw [subst, substAll_eq_map]

/-- Only the variables of the term matter to a substitution. -/
theorem subst_congr {f g : String → Term} (t : Term) (h : ∀ x ∈ t.variableNames, f x = g x) :
    t.subst f = t.subst g := by
  induction t with
  | var name => exact h name (by simp)
  | atom | num | str => rfl
  | list items ih =>
    rw [subst_list, subst_list]
    congr 1
    refine List.map_congr_left fun t ht => ih t ht fun x hx => h x ?_
    exact mem_variableNames_list.2 ⟨t, ht, hx⟩

@[simp] theorem subst_self (t : Term) : t.subst var = t := by
  induction t with
  | var | atom | num | str => rfl
  | list items ih =>
    rw [subst_list]
    congr 1
    exact (List.map_congr_left ih).trans (List.map_id' items)

/-- Two substitutions one after the other are one. -/
theorem subst_subst (f g : String → Term) (t : Term) :
    (t.subst f).subst g = t.subst fun x => (f x).subst g := by
  induction t with
  | var | atom | num | str => rfl
  | list items ih => simpa using ih

/-- The variables after a substitution are those of the terms that were put in. -/
theorem mem_variableNames_subst {x : String} {f : String → Term} (t : Term) :
    x ∈ (t.subst f).variableNames ↔ ∃ y ∈ t.variableNames, x ∈ (f y).variableNames := by
  induction t with
  | var name => simp
  | atom | num | str => simp
  | list items ih =>
    simp only [subst_list, mem_variableNames_list, List.mem_map]
    constructor
    · rintro ⟨_, ⟨t, ht, rfl⟩, hx⟩
      obtain ⟨y, hy, hxy⟩ := (ih t ht).1 hx
      exact ⟨y, ⟨t, ht, hy⟩, hxy⟩
    · rintro ⟨y, ⟨t, ht, hy⟩, hxy⟩
      exact ⟨_, ⟨t, ht, rfl⟩, (ih t ht).2 ⟨y, hy, hxy⟩⟩

/-- A search after a substitution is a search in the terms that were put in. -/
theorem anyVar_subst {p : String → Bool} (f : String → Term) (t : Term) :
    (t.subst f).anyVar p = t.anyVar fun x => (f x).anyVar p := by
  rw [Bool.eq_iff_iff, anyVar_eq_true, anyVar_eq_true]
  constructor
  · rintro ⟨x, hx, hp⟩
    obtain ⟨y, hy, hxy⟩ := (mem_variableNames_subst t).1 hx
    exact ⟨y, hy, (anyVar_eq_true _).2 ⟨x, hxy, hp⟩⟩
  · rintro ⟨y, hy, hp⟩
    obtain ⟨x, hx, hp⟩ := (anyVar_eq_true _).1 hp
    exact ⟨x, (mem_variableNames_subst t).2 ⟨y, hy, hx⟩, hp⟩

/-- A variable inside of a list stands for less than the list. -/
theorem weight_lt_of_mem {x : String} (f : String → Term) (t : Term) (hx : x ∈ t.variableNames)
    (ht : t ≠ var x) : (f x).weight < (t.subst f).weight := by
  have hle : ∀ t : Term, x ∈ t.variableNames → (f x).weight ≤ (t.subst f).weight := by
    intro t hx
    induction t with
    | var name => simp [mem_variableNames_var.1 hx]
    | atom | num | str => simp at hx
    | list items ih =>
      obtain ⟨u, hu, hxu⟩ := mem_variableNames_list.1 hx
      refine Nat.le_trans (ih u hu hxu) (Nat.le_of_lt ?_)
      rw [subst_list]
      exact weight_lt_list (List.mem_map_of_mem hu)
  cases t with
  | var name => exact absurd (congrArg var (mem_variableNames_var.1 hx)).symm ht
  | atom | num | str => simp at hx
  | list items =>
    obtain ⟨u, hu, hxu⟩ := mem_variableNames_list.1 hx
    rw [subst_list]
    exact Nat.lt_of_le_of_lt (hle u hxu) (weight_lt_list (List.mem_map_of_mem hu))

/-! ## Terms without `_` and without floating-point numbers -/

/-- The term has no anonymous variable and no floating-point number. -/
inductive Plain : Term → Prop where
  | var {name : String} (h : name ≠ anonymousName) : Plain (.var name)
  | atom {name : String} : Plain (.atom name)
  | int {n : Int64} : Plain (.num (.int n))
  | str {s : String} : Plain (.str s)
  | list {items : List Term} (h : ∀ t ∈ items, Plain t) : Plain (.list items)

/-- A property of terms that the elements of a list inherit. -/
def Hereditary (Q : Term → Prop) : Prop := ∀ {items}, Q (.list items) → ∀ t ∈ items, Q t

theorem hereditary_plain : Hereditary Plain := by
  intro items h
  cases h with
  | list h => exact h

theorem isAnonymous_eq_false {t : Term} : t.isAnonymous = false ↔ t ≠ var anonymousName := by
  cases t <;> simp [isAnonymous]

theorem Plain.isAnonymous {t : Term} (h : t.Plain) : t.isAnonymous = false := by
  cases h with
  | var h => simpa [Term.isAnonymous] using h
  | _ => rfl

theorem Plain.ne_anonymousName {t : Term} (ht : t.Plain) {x : String}
    (hx : x ∈ t.variableNames) : x ≠ anonymousName := by
  induction ht with
  | var h => rwa [mem_variableNames_var.1 hx]
  | atom | int | str => simp at hx
  | list _ ih =>
    obtain ⟨t, ht, hxt⟩ := mem_variableNames_list.1 hx
    exact ih t ht hxt

/-- Plain terms in the place of variables keep a term plain. -/
theorem Plain.subst {f : String → Term} {t : Term} (ht : t.Plain)
    (hf : ∀ x ∈ t.variableNames, (f x).Plain) : (t.subst f).Plain := by
  induction ht with
  | @var name => exact hf name (by simp)
  | atom => exact .atom
  | int => exact .int
  | str => exact .str
  | @list items _ ih =>
    rw [subst_list]
    refine .list fun u hu => ?_
    obtain ⟨t, ht, rfl⟩ := List.mem_map.1 hu
    exact ih t ht fun x hx => hf x (mem_variableNames_list.2 ⟨t, ht, hx⟩)

/-! ## Names of clause variables -/

theorem toList_freshName (k : Nat) (x : String) :
    (freshName k x).toList = x.toList ++ '#' :: (toString k).toList := by
  simp [freshName]

/-- A fresh name has the sign that no name in a text has. -/
theorem hash_mem_freshName (k : Nat) (x : String) : '#' ∈ (freshName k x).toList := by
  simp [toList_freshName]

theorem freshName_ne_anonymousName (k : Nat) (x : String) : freshName k x ≠ anonymousName := by
  intro h
  have hmem := hash_mem_freshName k x
  rw [h] at hmem
  simp [anonymousName] at hmem

/-- The digits of an activation hold no `#`, so the last `#` of a fresh name is the one that was
added. -/
theorem hash_not_mem_toString (k : Nat) : '#' ∉ (toString k).toList := by
  intro h
  rw [Nat.toString_eq_repr, Nat.toList_repr] at h
  have hdigit : '#'.isDigit = true := Nat.isDigit_of_mem_toDigits (by decide) (by decide) h
  cases hdigit

/-- The last `#` of a text determines what is before it and what is after it. -/
theorem eq_of_append_hash {xs ys us vs : List Char} (h : xs ++ '#' :: us = ys ++ '#' :: vs)
    (hu : '#' ∉ us) (hv : '#' ∉ vs) : xs = ys ∧ us = vs := by
  rcases List.append_eq_append_iff.1 h with ⟨ws, rfl, hw⟩ | ⟨ws, rfl, hw⟩
  · cases ws with
    | nil => simpa using hw
    | cons c ws =>
      rw [(List.cons.inj hw).2] at hu
      simp at hu
  · cases ws with
    | nil => simpa [eq_comm] using hw
    | cons c ws =>
      rw [(List.cons.inj hw).2] at hv
      simp at hv

/-- A fresh name tells its activation and the variable it stands for. -/
theorem freshName_inj {j k : Nat} {x y : String} (h : freshName j x = freshName k y) :
    j = k ∧ x = y := by
  have hlists := congrArg String.toList h
  rw [toList_freshName, toList_freshName] at hlists
  obtain ⟨hxy, hjk⟩ :=
    eq_of_append_hash hlists (hash_not_mem_toString j) (hash_not_mem_toString k)
  rw [Nat.toString_eq_repr, Nat.toString_eq_repr, Nat.toList_repr, Nat.toList_repr] at hjk
  have hnum := congrArg (fun cs => Nat.ofDigitChars 10 cs 0) hjk
  simp only [Nat.ofDigitChars_ten_toDigits] at hnum
  exact ⟨hnum, String.toList_inj.1 hxy⟩

/-! ## Renaming -/

/-- The name that a clause variable has after renaming; the anonymous variable keeps its name. -/
def renamedName (f : String → String) (x : String) : String :=
  if x = anonymousName then x else f x

/-- Renaming before a substitution is a substitution for the new names. -/
theorem rename_subst (f : String → String) (σ : String → Term) (t : Term) :
    (t.rename f).subst σ = t.subst fun x => σ (renamedName f x) := by
  rw [rename, subst_subst]
  rfl

theorem renameAll_eq_map (f : String → String) (ts : List Term) :
    renameAll f ts = ts.map (rename f) :=
  substAll_eq_map _ ts

/-- The variables of a renamed term are the new names of its variables. -/
theorem mem_variableNames_rename {x : String} {f : String → String} (t : Term) :
    x ∈ (t.rename f).variableNames ↔ ∃ y ∈ t.variableNames, x = renamedName f y := by
  simp [rename, mem_variableNames_subst, renamedName]

theorem Plain.rename_freshName {t : Term} (ht : t.Plain) (k : Nat) :
    (t.rename (freshName k)).Plain := by
  refine ht.subst fun x hx => .var ?_
  rw [if_neg (ht.ne_anonymousName hx)]
  exact freshName_ne_anonymousName k x

end Term

end StackLogic.Horn
