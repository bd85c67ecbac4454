import StackLogic.Proofs.AnonymousVariables
import StackLogic.Proofs.Relabelling
import Mathlib.Logic.Equiv.Basic

/-!
# Unification is symmetric

Unifying with both sides exchanged succeeds in the same cases. The two runs bind the same variables
to terms that are no variables, but of two free variables each run binds the left one, so that their
class has another free variable in the second run. `SameClasses` relates the bindings of both runs:
every variable resolves to the same term, or to free variables of which the second has the new name
of the first. Every step keeps that relation. If two free variables are bound to each other, the
names of these two are exchanged in addition (`SameClasses.link`).
-/

namespace StackLogic.Horn

open Bindings Term

/-! ## Constants -/

section Constants

open Float.Model (UnpackedFloat)

/-- Exponents are compared first, then mantissas. -/
theorem compare_then_compare_eq_swap (d e : Int) (m n : Nat) :
    (compare d e).then (compare m n) = ((compare e d).then (compare n m)).swap := by
  rw [Ordering.swap_then, ← Std.OrientedOrd.eq_swap, ← Std.OrientedOrd.eq_swap]

/-- Comparing in the other order gives the opposite, also where there is no order. -/
theorem compare_eq_map_swap (x y : UnpackedFloat) :
    x.compare y = (y.compare x).map Ordering.swap := by
  cases x with
  | notANumber => cases y <;> rfl
  | infinity s =>
    cases y with
    | infinity t => cases s <;> cases t <;> rfl
    | notANumber | zero | finite => cases s <;> rfl
  | zero s =>
    cases y with
    | infinity t | finite t => cases t <;> rfl
    | notANumber | zero => rfl
  | finite s m e =>
    cases y with
    | notANumber => cases s <;> rfl
    | infinity t | zero t => cases s <;> cases t <;> rfl
    | finite t n d =>
      cases s with
      | positive =>
        cases t with
        | positive => exact congrArg some (compare_then_compare_eq_swap e d m n)
        | negative => rfl
      | negative =>
        cases t with
        | positive => rfl
        | negative =>
          exact congrArg (fun o : Ordering => some o.swap)
            (compare_then_compare_eq_swap e d m n)

theorem beq_float_comm (x y : Float) : (x == y) = (y == x) := by
  show (x.toModel.unpack.compare y.toModel.unpack == some .eq) =
    (y.toModel.unpack.compare x.toModel.unpack == some .eq)
  rw [compare_eq_map_swap]
  cases y.toModel.unpack.compare x.toModel.unpack with
  | none => rfl
  | some o => cases o <;> rfl

theorem Number.sameValue_comm (m n : Number) : m.sameValue n = n.sameValue m := by
  cases m with
  | int a =>
    cases n with
    | int c => exact BEq.comm
    | float y => exact beq_float_comm _ _
  | float x => cases n <;> exact beq_float_comm _ _

/-- Constants are compared alike from both sides. -/
theorem Term.sameConstant_comm (s t : Term) : s.sameConstant t = t.sameConstant s := by
  cases s with
  | var | list => cases t <;> rfl
  | atom =>
    cases t with
    | atom => exact BEq.comm
    | _ => rfl
  | str =>
    cases t with
    | str => exact BEq.comm
    | _ => rfl
  | num m =>
    cases t with
    | num n => exact m.sameValue_comm n
    | _ => rfl

end Constants

/-! ## Bindings with the same classes of variables -/

variable {ρ : Relabelling} {b b' : Bindings} {x y : String} {t u left right : Term}

/-- Every variable resolves to the same term under both bindings, or to free variables of which the
second has the new name of the first. -/
structure SameClasses (ρ : Relabelling) (b b' : Bindings) : Prop where
  first : b.WellFormed
  second : b'.WellFormed
  resolves : ∀ t u, Resolves b t u → Resolves b' t (relabel ρ u)

/-- The change of names that leaves all names as they are. -/
def Relabelling.refl : Relabelling where
  toFun := id
  injective := id
  anonymous := rfl

/-- The change of names that exchanges two names first. -/
def Relabelling.exchange (ρ : Relabelling) (x y : String) (hx : x ≠ anonymousName)
    (hy : y ≠ anonymousName) : Relabelling where
  toFun z := ρ (Equiv.swap x y z)
  injective h := (Equiv.swap x y).injective (ρ.injective h)
  anonymous := by rw [Equiv.swap_apply_of_ne_of_ne hx.symm hy.symm, ρ.anonymous]

section Exchange

variable (hx : x ≠ anonymousName) (hy : y ≠ anonymousName)

theorem Relabelling.exchange_right : ρ.exchange x y hx hy y = ρ x :=
  congrArg ρ (Equiv.swap_apply_right x y)

theorem Relabelling.exchange_of_ne {z : String} (hzx : z ≠ x) (hzy : z ≠ y) :
    ρ.exchange x y hx hy z = ρ z :=
  congrArg ρ (Equiv.swap_apply_of_ne_of_ne hzx hzy)

end Exchange

theorem relabel_var (f : String → String) (x : String) : relabel f (.var x) = .var (f x) := rfl

theorem relabel_of_ne_var (hu : ∀ x, u ≠ .var x) : relabel ρ u = u := by
  cases u with
  | var x => exact absurd rfl (hu x)
  | _ => rfl

theorem relabel_eq_var_iff : relabel ρ u = .var (ρ x) ↔ u = .var x := by
  cases u with
  | var z =>
    rw [relabel_var, Term.var.injEq, Term.var.injEq]
    exact ρ.eq_iff
  | _ => simp [relabel]

theorem renamedName_eq (ρ : Relabelling) (x : String) : renamedName ρ x = ρ x := by
  unfold renamedName
  split
  next hx => rw [hx, ρ.anonymous]
  next => rfl

namespace SameClasses

theorem refl (hb : b.WellFormed) : SameClasses .refl b b where
  first := hb
  second := hb
  resolves t u h := by
    cases u <;> exact h

theorem resolves_var (h : SameClasses ρ b b') (ht : Resolves b t (.var x)) :
    Resolves b' t (.var (ρ x)) :=
  h.resolves t _ ht

/-- A term with a value resolves to the same value. -/
theorem resolves_value (h : SameClasses ρ b b') (ht : Resolves b t u) (hu : ∀ x, u ≠ .var x) :
    Resolves b' t u :=
  relabel_of_ne_var hu ▸ h.resolves t u ht

/-- What is left when bound variables are replaced is the same up to the names of free variables. -/
theorem resolveDeep_eq (h : SameClasses ρ b b') (t : Term) :
    b'.resolveDeep t = (b.resolveDeep t).rename ρ := by
  induction t using h.first.resolve_induction with
  | free t y hr =>
    rw [hr.resolveDeep_eq_self h.first (by simp),
      (h.resolves_var hr).resolveDeep_eq_self h.second (by simp), rename_var]
  | constant t u hr hv hl =>
    rw [hr.resolveDeep_eq_self h.first hl, (h.resolves_value hr hv).resolveDeep_eq_self h.second hl]
    cases u with
    | var y => exact absurd rfl (hv y)
    | list items => exact absurd rfl (hl items)
    | atom | num | str => rfl
  | list t items hr ih =>
    have hr' : Resolves b' t (.list items) := h.resolves_value hr (by simp)
    rw [hr.resolveDeep_list h.first, hr'.resolveDeep_list h.second, rename_list, List.map_map]
    exact congrArg Term.list (List.map_congr_left ih)

/-- A variable occurs in a term under the first bindings if the one with the new name does under the
second. -/
theorem occurs (h : SameClasses ρ b b') {found : Bool} (ho : Occurs b x t found) :
    Occurs b' (ρ x) t found := by
  rw [h.second.occurs_iff, ho.eq_occurs h.first, Bool.eq_iff_iff, occurs_eq_true, occurs_eq_true,
    h.resolveDeep_eq, mem_variableNames_rename]
  constructor
  · intro hx
    exact ⟨x, hx, (renamedName_eq ρ x).symm⟩
  · rintro ⟨y, hy, hxy⟩
    rw [renamedName_eq, ρ.eq_iff] at hxy
    exact hxy ▸ hy

/-- The free variables of both bindings correspond to each other. -/
theorem free_iff (h : SameClasses ρ b b') (x : String) :
    b.get? x = none ↔ b'.get? (ρ x) = none := by
  constructor
  · intro hx
    exact (h.resolves_var (.free hx)).get?_eq_none
  · intro hx
    have hresolve := h.first.resolves_resolve (.var (ρ x))
    have hend : relabel ρ (b.resolve (.var (ρ x))) = .var (ρ x) :=
      (h.resolves _ _ hresolve).unique (.free hx)
    rw [relabel_eq_var_iff.1 hend] at hresolve
    exact hresolve.get?_eq_none

/-! ### One more binding -/

/-- A free variable is bound to a term that is no variable, under both bindings. -/
theorem bind (h : SameClasses ρ b b') (hx : b.get? x = none) (ht : ∀ y, t ≠ .var y)
    (hb : (b.extend x t).WellFormed) (hb' : (b'.extend (ρ x) t).WellFormed) :
    SameClasses ρ (b.extend x t) (b'.extend (ρ x) t) where
  first := hb
  second := hb'
  resolves v u hu := by
    have hr := h.first.resolves_resolve v
    by_cases hvx : b.resolve v = .var x
    · -- the class of `x` has the new value
      rw [hvx] at hr
      rw [hu.unique (hr.extend_of_eq (.value ht)), relabel_of_ne_var ht]
      exact (h.resolves_var hr).extend_of_eq (.value ht)
    · rw [hu.unique (hr.extend_of_ne hx hvx)]
      exact (h.resolves v _ hr).extend_of_ne ((h.free_iff x).1 hx) fun heq =>
        hvx (relabel_eq_var_iff.1 heq)

/-- Of two free variables, the first is bound to the second under the first bindings, and the other
way round under the second bindings. -/
theorem link (h : SameClasses ρ b b') (hx : b.get? x = none) (hy : b.get? y = none)
    (hxy : x ≠ y) (hxa : x ≠ anonymousName) (hya : y ≠ anonymousName)
    (hb : (b.extend x (.var y)).WellFormed) (hb' : (b'.extend (ρ y) (.var (ρ x))).WellFormed) :
    SameClasses (ρ.exchange x y hxa hya) (b.extend x (.var y))
      (b'.extend (ρ y) (.var (ρ x))) where
  first := hb
  second := hb'
  resolves v u hu := by
    have hr := h.first.resolves_resolve v
    have hx' : b'.get? (ρ x) = none := (h.free_iff x).1 hx
    have hy' : b'.get? (ρ y) = none := (h.free_iff y).1 hy
    have hyx : y ≠ x := fun heq => hxy heq.symm
    have hρ : ρ x ≠ ρ y := fun heq => hxy (ρ.injective heq)
    by_cases hvx : b.resolve v = .var x
    · -- `x` is in the class of `y` now, which is the class of the new name of `x`
      rw [hvx] at hr
      have hyfree : (b.extend x (.var y)).get? y = none := by rw [get?_extend, if_neg hyx, hy]
      rw [hu.unique (hr.extend_of_eq (.free hyfree)), relabel_var, Relabelling.exchange_right]
      exact (h.resolves_var hr).extend_of_ne hy' (by simpa using hρ)
    · have hr' := hr.extend_of_ne (v := .var y) hx hvx
      rw [hu.unique hr']
      cases hend : b.resolve v with
      | var z =>
        rw [hend] at hr hvx
        have hzx : z ≠ x := fun heq => hvx (congrArg Term.var heq)
        by_cases hzy : z = y
        · -- the other way round, `y` is bound to the new name of `x`
          subst hzy
          have hxfree : (b'.extend (ρ z) (.var (ρ x))).get? (ρ x) = none := by
            rw [get?_extend, if_neg hρ, hx']
          rw [relabel_var, Relabelling.exchange_right]
          exact (h.resolves_var hr).extend_of_eq (.free hxfree)
        · rw [relabel_var, Relabelling.exchange_of_ne _ _ hzx hzy]
          refine (h.resolves_var hr).extend_of_ne hy' fun heq => hzy ?_
          exact ρ.injective (Term.var.inj heq)
      | _ =>
        rw [hend] at hr
        exact (h.resolves_value hr (by simp)).extend_of_ne hy' (by simp)

end SameClasses

/-! ## Runs with both sides exchanged -/

theorem BothNamed.symm (h : BothNamed left right) : BothNamed right left := ⟨h.2, h.1⟩

namespace Meets

/-- A term that is no variable is met from the other side. -/
theorem swap (h : Meets b left right x t) (hs : SameClasses ρ b b') (ht : ∀ y, t ≠ .var y) :
    Meets b' right left (ρ x) t := by
  cases h with
  | left hl hr => exact .right (hs.resolves_value hr ht) (hs.resolves_var hl) ht
  | right hl hr => exact .left (hs.resolves_var hr) (hs.resolves_value hl ht) (ht _)

/-- Of two free variables, the other one is bound. -/
theorem swap_var (h : Meets b left right x (.var y)) (hs : SameClasses ρ b b') :
    Meets b' right left (ρ y) (.var (ρ x)) := by
  cases h with
  | left hl hr hxy =>
    refine .left (hs.resolves_var hr) (hs.resolves_var hl) fun heq => hxy ?_
    rw [ρ.injective (Term.var.inj heq)]
  | right _ _ ht => exact absurd rfl (ht y)

theorem not_occurs_var (h : Meets b left right x (.var y)) : Occurs b x (.var y) false := by
  have hyx : (y == x) = false := beq_eq_false_iff_ne.2 fun heq => h.ne_var (congrArg _ heq)
  exact hyx ▸ .free h.resolves_self

end Meets

/-- The same problem with both sides exchanged. -/
def Problem.swap : Problem → Problem
  | pair left right => pair right left
  | each lefts rights => each rights lefts

/-- Both runs fail, or both succeed with bindings that have the same classes. -/
inductive SameOutcome : Option Bindings → Option Bindings → Prop where
  | clash : SameOutcome none none
  | bindings {ρ : Relabelling} {b b' : Bindings} (h : SameClasses ρ b b') :
      SameOutcome (some b) (some b')

/-- One variable bound by one run. -/
theorem exists_swap_bind (hs : SameClasses ρ b b') (hn : BothNamed left right)
    (hm : Meets b left right x t) (ho : Occurs b x t false) :
    ∃ result, Unifying (.pair right left) b' result ∧
      SameOutcome (some (b.extend x t)) result := by
  have hb := ((Unifying.bind hn hm ho).wellFormed hs.first rfl).1
  obtain ⟨hxa, hta⟩ := hm.ne_anonymous hs.first hn
  by_cases hvar : ∃ y, t = .var y
  · obtain ⟨y, rfl⟩ := hvar
    have hm' := hm.swap_var hs
    have hrun := Unifying.bind hn.symm hm' hm'.not_occurs_var
    have hxy : x ≠ y := fun heq => hm.ne_var (congrArg Term.var heq.symm)
    have hya : y ≠ anonymousName := fun heq => hta (congrArg Term.var heq)
    exact ⟨_, hrun, .bindings (hs.link hm.get?_eq_none hm.resolves_self.get?_eq_none hxy hxa hya hb
      (hrun.wellFormed hs.second rfl).1)⟩
  · have ht := not_exists.1 hvar
    have hrun := Unifying.bind hn.symm (hm.swap hs ht) (hs.occurs ho)
    exact ⟨_, hrun, .bindings (hs.bind hm.get?_eq_none ht hb (hrun.wellFormed hs.second rfl).1)⟩

/-- The run with both sides exchanged, under bindings with the same classes. -/
theorem Unifying.exists_swap {p : Problem} {result : Option Bindings} (h : Unifying p b result)
    (hs : SameClasses ρ b b') :
    ∃ result', Unifying p.swap b' result' ∧ SameOutcome result result' := by
  induction h generalizing ρ b' with
  | anonymous hn => exact ⟨_, .anonymous fun hn' => hn hn'.symm, .bindings hs⟩
  | same hn hl hr =>
    exact ⟨_, .same hn.symm (hs.resolves_var hr) (hs.resolves_var hl), .bindings hs⟩
  | bind hn hm ho => exact exists_swap_bind hs hn hm ho
  | @occursCheck _ _ b x t hn hm ho =>
    -- a free variable does not occur in another one
    have ht : ∀ y, t ≠ .var y := by
      rintro y rfl
      have heq := (ho.eq_occurs hs.first).trans (hm.not_occurs_var.eq_occurs hs.first).symm
      cases heq
    exact ⟨_, .occursCheck hn.symm (hm.swap hs ht) (hs.occurs ho), .clash⟩
  | lists hn hl hr hlen _ ih =>
    obtain ⟨result', helements, hsame⟩ := ih hs
    exact ⟨result', .lists hn.symm (hs.resolves_value hr (by simp)) (hs.resolves_value hl (by simp))
      hlen.symm helements, hsame⟩
  | lengths hn hl hr hlen =>
    exact ⟨_, .lengths hn.symm (hs.resolves_value hr (by simp)) (hs.resolves_value hl (by simp))
      hlen.symm, .clash⟩
  | @constants _ _ s t _ hn hl hr hsv htv hst =>
    refine ⟨_, .constants hn.symm (hs.resolves_value hr htv) (hs.resolves_value hl hsv) htv hsv
      fun ys xs ht hs => hst xs ys hs ht, ?_⟩
    rw [t.sameConstant_comm]
    split
    · exact .bindings hs
    · exact .clash
  | done => exact ⟨_, .done, .bindings hs⟩
  | next _ _ ih₁ ih₂ =>
    obtain ⟨_, hfirst, hsame⟩ := ih₁ hs
    cases hsame with
    | bindings hs₁ =>
      obtain ⟨result', hrest, hsame⟩ := ih₂ hs₁
      exact ⟨result', .next hfirst hrest, hsame⟩
  | stop _ ih =>
    obtain ⟨_, hfirst, hsame⟩ := ih hs
    cases hsame
    exact ⟨_, .stop hfirst, .clash⟩

/-! ## Symmetry -/

/-- All terms are the same under both bindings when bound variables are replaced, up to one change
of the names of free variables that keeps names apart. -/
def Bindings.AgreeUpToNames (b b' : Bindings) : Prop :=
  ∃ ρ : Relabelling, (∀ x, b.get? x = none ↔ b'.get? (ρ x) = none) ∧
    ∀ t, b'.resolveDeep t = (b.resolveDeep t).rename ρ

/-- Bindings with the same classes of variables agree up to the names of free variables. -/
theorem SameClasses.agreeUpToNames (h : SameClasses ρ b b') : b.AgreeUpToNames b' :=
  ⟨ρ, h.free_iff, h.resolveDeep_eq⟩

/-- Either both results are bindings, which agree up to the names of free variables, or none is. -/
def SymmetricResults (result result' : Option Bindings) : Prop :=
  (result.isSome ↔ result'.isSome) ∧
    ∀ b b', result = some b → result' = some b' → b.AgreeUpToNames b'

theorem SameOutcome.symmetricResults {result result' : Option Bindings}
    (h : SameOutcome result result') : SymmetricResults result result' := by
  cases h with
  | clash => simp [SymmetricResults]
  | bindings hs =>
    refine ⟨by simp, ?_⟩
    rintro _ _ ⟨⟩ ⟨⟩
    exact hs.agreeUpToNames

/-- Exchanging the two terms gives bindings with the same classes. -/
theorem unify_sameOutcome (hb : b.WellFormed) (left right : Term) :
    SameOutcome (unify left right b) (unify right left b) := by
  obtain ⟨result, hrun, hsame⟩ := (unifying_unify hb left right).exists_swap (.refl hb)
  rwa [(unifying_pair_iff hb).1 hrun] at hsame

/-- Exchanging the two argument lists gives bindings with the same classes. -/
theorem unifyAll_sameOutcome (hb : b.WellFormed) (lefts rights : List Term) :
    SameOutcome (unifyAll lefts rights b) (unifyAll rights lefts b) := by
  by_cases hlen : lefts.length = rights.length
  · obtain ⟨result, hrun, hsame⟩ := (unifying_unifyAll hb hlen).exists_swap (.refl hb)
    rwa [(unifying_each_iff hb hlen.symm).1 hrun] at hsame
  · rw [unifyAll_eq_none hlen, unifyAll_eq_none (Ne.symm hlen)]
    exact .clash

/-- **Unification is symmetric.** With both sides exchanged, it succeeds in the same cases, and the
bindings give the same terms up to the names of free variables. -/
theorem unification_symmetric (hb : b.WellFormed) :
    (∀ left right, SymmetricResults (unify left right b) (unify right left b)) ∧
      ∀ lefts rights, SymmetricResults (unifyAll lefts rights b) (unifyAll rights lefts b) :=
  ⟨fun left right => (unify_sameOutcome hb left right).symmetricResults,
    fun lefts rights => (unifyAll_sameOutcome hb lefts rights).symmetricResults⟩

/-- `Z` is bound to a list with `_` and a floating-point number. -/
def holeInValue : Bindings := empty.extend "Z" (.list [.var "_", .num (.float 2.5)])

theorem wellFormed_holeInValue : holeInValue.WellFormed :=
  wellFormed_empty.extend rfl (by decide) (by simp) (by decide)

/-- The terms `X`, `Z` and `W`. -/
def threeVariables : List Term := [.var "X", .var "Z", .var "W"]

/-- The terms `Y`, `[[V, _], 2.5]` and `X`. -/
def threeTerms : List Term :=
  [.var "Y", .list [.list [.var "V", .var "_"], .num (.float 2.5)], .var "X"]

/-- All three variables have the value `Y` after one run and `W` after the other. -/
theorem unification_symmetric_threeVariables :
    (SymmetricResults (unifyAll threeVariables threeTerms holeInValue)
        (unifyAll threeTerms threeVariables holeInValue) ∧
      SymmetricResults (unify (.list threeVariables) (.list threeTerms) holeInValue)
        (unify (.list threeTerms) (.list threeVariables) holeInValue)) ∧
    ((unifyAll threeVariables threeTerms holeInValue).map fun b =>
      ["X", "Y", "W"].map fun x => b.resolveDeep (.var x)) =
        some [.var "Y", .var "Y", .var "Y"] ∧
    ((unifyAll threeTerms threeVariables holeInValue).map fun b =>
      ["X", "Y", "W"].map fun x => b.resolveDeep (.var x)) =
        some [.var "W", .var "W", .var "W"] := by
  obtain ⟨hpair, heach⟩ := unification_symmetric wellFormed_holeInValue
  exact ⟨⟨heach _ _, hpair _ _⟩, rfl, rfl⟩

end StackLogic.Horn
