import StackLogic.Proofs.MostGeneral

/-!
# What unification makes alike

With the anonymous variable and with floating-point numbers, unification does not make both sides
equal: `_` is never bound, and `1` unifies with `1.0`. It makes them match. `Term.Matches` is neither
transitive nor, on values of numbers alone, reflexive, so matches cannot be chained as equations can.
What carries a match through all bindings added later is that replacing variables keeps it, as long
as `_` stays (`Matches.subst`).
-/

namespace StackLogic.Horn

namespace Term

/-- The terms match position by position. `_` matches every term, and numbers match if they are the
same or have the same value. -/
inductive Matches : Term → Term → Prop where
  | anonymousLeft (t : Term) : Matches (.var anonymousName) t
  | anonymousRight (t : Term) : Matches t (.var anonymousName)
  | var (name : String) : Matches (.var name) (.var name)
  | atom (name : String) : Matches (.atom name) (.atom name)
  | num {m n : Number} (h : m = n ∨ m.sameValue n = true) : Matches (.num m) (.num n)
  | str (s : String) : Matches (.str s) (.str s)
  | list {xs ys : List Term} (h : List.Forall₂ Matches xs ys) : Matches (.list xs) (.list ys)

theorem Matches.refl (t : Term) : Matches t t := by
  induction t with
  | var name => exact .var name
  | atom name => exact .atom name
  | num n => exact .num (.inl rfl)
  | str s => exact .str s
  | list items ih => exact .list (List.forall₂_same.2 ih)

theorem matches_of_sameConstant {s t : Term} (h : s.sameConstant t = true) : Matches s t := by
  cases s with
  | var | list => simp [sameConstant] at h
  | atom a =>
    cases t with
    | atom c =>
      have hac : a = c := by simpa [sameConstant] using h
      rw [hac]
      exact .atom c
    | _ => simp [sameConstant] at h
  | num m =>
    cases t with
    | num n => exact .num (.inr h)
    | _ => simp [sameConstant] at h
  | str a =>
    cases t with
    | str c =>
      have hac : a = c := by simpa [sameConstant] using h
      rw [hac]
      exact .str c
    | _ => simp [sameConstant] at h

/-- Replacing variables keeps a match, unless `_` is replaced. -/
theorem Matches.subst {σ : String → Term} (hσ : σ anonymousName = .var anonymousName) {s t : Term}
    (h : Matches s t) : Matches (s.subst σ) (t.subst σ) := by
  have hright : ∀ u, Matches u ((Term.var anonymousName).subst σ) := by
    intro u
    rw [subst_var, hσ]
    exact .anonymousRight u
  induction s generalizing t with
  | var name =>
    cases h with
    | anonymousLeft =>
      rw [subst_var, hσ]
      exact .anonymousLeft _
    | anonymousRight => exact hright _
    | var => exact .refl _
  | atom name =>
    cases h with
    | anonymousRight => exact hright _
    | atom => exact .refl _
  | num n =>
    cases h with
    | anonymousRight => exact hright _
    | num h => exact .num h
  | str s =>
    cases h with
    | anonymousRight => exact hright _
    | str => exact .refl _
  | list items ih =>
    cases h with
    | anonymousRight => exact hright _
    | list h =>
      rw [subst_list, subst_list]
      refine .list (List.forall₂_map_left_iff.2 (List.forall₂_map_right_iff.2 ?_))
      induction h with
      | nil => exact .nil
      | cons hxy _ ihrest =>
        obtain ⟨ihx, ihxs⟩ := List.forall_mem_cons.1 ih
        exact .cons (ihx hxy) (ihrest ihxs)

end Term

open Bindings Term

variable {b b' b'' : Bindings} {s t left right : Term} {p : Problem} {result : Option Bindings}

/-! ## Bindings added later -/

/-- Replacing the variables bound first, and then those bound later, is replacing all at once. -/
theorem Bindings.WellFormed.resolveDeep_resolveDeep (hb' : b'.WellFormed) (he : b.Extends b')
    (t : Term) : b'.resolveDeep (b.resolveDeep t) = b'.resolveDeep t := by
  have hsat : b.SatisfiedBy fun x => b'.resolveDeep (.var x) :=
    hb'.satisfiedBy_resolveDeep.of_extends he
  calc b'.resolveDeep (b.resolveDeep t)
      = (b.resolveDeep t).subst fun x => b'.resolveDeep (.var x) := b'.resolveDeep_eq_subst _
    _ = t.subst fun x => b'.resolveDeep (.var x) := hsat.subst_resolveDeep t
    _ = b'.resolveDeep t := (b'.resolveDeep_eq_subst t).symm

/-- The terms match when bound variables are replaced. -/
def Bindings.Unites (b : Bindings) (s t : Term) : Prop :=
  (b.resolveDeep s).Matches (b.resolveDeep t)

theorem Bindings.unites_of_eq (h : b.resolveDeep s = b.resolveDeep t) : b.Unites s t := by
  rw [Unites, h]
  exact .refl _

/-- Terms that match are united by all bindings. -/
theorem Bindings.WellFormed.unites_of_matches (hb : b.WellFormed) (h : s.Matches t) :
    b.Unites s t := by
  have hanonymous : b.resolveDeep (.var anonymousName) = .var anonymousName :=
    resolveDeep_free hb.anonymous_free
  rw [Unites, b.resolveDeep_eq_subst s, b.resolveDeep_eq_subst t]
  exact h.subst hanonymous

/-- More bindings keep terms united. -/
theorem Bindings.Unites.of_extends (h : b.Unites s t) (hb' : b'.WellFormed) (he : b.Extends b') :
    b'.Unites s t := by
  have hboth : b'.Unites (b.resolveDeep s) (b.resolveDeep t) := hb'.unites_of_matches h
  rw [Unites, hb'.resolveDeep_resolveDeep he, hb'.resolveDeep_resolveDeep he] at hboth
  exact hboth

/-- Terms that resolve to matching terms match. -/
theorem Bindings.Unites.of_resolves {u v : Term} (h : b'.Unites u v) (hs : Resolves b s u)
    (ht : Resolves b t v) (hb' : b'.WellFormed) (he : b.Extends b') : b'.Unites s t := by
  rw [Unites, ← hs.resolveDeep_eq hb' he, ← ht.resolveDeep_eq hb' he]
  exact h

/-- `_` is united with every term. -/
theorem Bindings.WellFormed.unites_of_not_bothNamed (hb : b.WellFormed)
    (h : ¬ BothNamed left right) : b.Unites left right := by
  refine hb.unites_of_matches ?_
  by_cases hleft : left = .var anonymousName
  · rw [hleft]
    exact .anonymousLeft right
  · have hright : right = .var anonymousName := by
      by_contra hne
      exact h ⟨isAnonymous_eq_false.2 hleft, isAnonymous_eq_false.2 hne⟩
    rw [hright]
    exact .anonymousRight left

/-! ## Runs of unification -/

/-- Both sides match, as a whole or element by element. -/
def Problem.UnitedBy (b : Bindings) : Problem → Prop
  | .pair left right => b.Unites left right
  | .each lefts rights => List.Forall₂ b.Unites lefts rights

/-- If unification succeeds, both sides match under the bindings it has made. -/
theorem Unifying.unitedBy (h : Unifying p b result) (hb : b.WellFormed) (hr : result = some b') :
    p.UnitedBy b' := by
  induction h generalizing b' with
  | anonymous hn =>
    cases hr
    exact hb.unites_of_not_bothNamed hn
  | @same left right b x _ hl hright =>
    cases hr
    have hx : b.Unites (.var x) (.var x) := unites_of_eq rfl
    exact hx.of_resolves hl hright hb (Extends.refl b)
  | @bind left right b x t hn hm ho =>
    have hrun : Unifying (.pair left right) b (some b') := hr ▸ .bind hn hm ho
    cases hr
    obtain ⟨hb', he⟩ := hrun.wellFormed hb rfl
    -- the variable now stands for the term
    have hequal : (b.extend x t).resolveDeep (.var x) = (b.extend x t).resolveDeep t :=
      hb'.resolveDeep_bound (by rw [get?_extend, if_pos rfl])
    cases hm with
    | left hl hright =>
      exact (unites_of_eq hequal).of_resolves hl hright hb' he
    | right hl hright =>
      exact (unites_of_eq hequal.symm).of_resolves hl hright hb' he
  | occursCheck | lengths | stop => cases hr
  | @lists _ _ _ xs ys _ _ hl hright _ elements ih =>
    obtain ⟨hb', he⟩ := elements.wellFormed hb hr
    have helements : List.Forall₂ b'.Unites xs ys := ih hb hr
    have hlists : b'.Unites (.list xs) (.list ys) := by
      rw [Unites, resolveDeep_list, resolveDeep_list]
      exact .list (List.forall₂_map_left_iff.2 (List.forall₂_map_right_iff.2 helements))
    exact hlists.of_resolves hl hright hb' he
  | constants _ hl hright hs ht hst =>
    split at hr
    next hsame =>
      cases hr
      have hconstants := hb.unites_of_matches (matches_of_sameConstant hsame)
      exact hconstants.of_resolves hl hright hb (Extends.refl _)
    next => cases hr
  | done =>
    cases hr
    exact .nil
  | next first rest ih₁ ih₂ =>
    obtain ⟨hb₁, _⟩ := first.wellFormed hb rfl
    obtain ⟨hb', he⟩ := rest.wellFormed hb₁ hr
    have hfirst := ih₁ hb rfl
    exact .cons (hfirst.of_extends hb' he) (ih₂ hb₁ hr)

/-- Under well-formed bindings, two terms or two lists of arguments that unify match position by
position when bound variables are replaced. Every match, of these terms or of any others, is kept by
all well-formed bindings that have more variables bound, and so by every further unification. -/
theorem unified_terms_match (hb : b.WellFormed) :
    (∀ left right b', unify left right b = some b' →
      (b'.resolveDeep left).Matches (b'.resolveDeep right) ∧
      ∀ b'', b''.WellFormed → b'.Extends b'' →
        (b''.resolveDeep left).Matches (b''.resolveDeep right)) ∧
    (∀ lefts rights b', unifyAll lefts rights b = some b' →
      ∀ b'', b''.WellFormed → b'.Extends b'' →
        List.Forall₂ Matches (lefts.map b''.resolveDeep) (rights.map b''.resolveDeep)) ∧
    (∀ s t, (b.resolveDeep s).Matches (b.resolveDeep t) →
      (∀ b', b'.WellFormed → b.Extends b' → (b'.resolveDeep s).Matches (b'.resolveDeep t)) ∧
      ∀ left right b', unify left right b = some b' →
        (b'.resolveDeep s).Matches (b'.resolveDeep t)) := by
  refine ⟨fun left right b' hu => ?_, fun lefts rights b' hu b'' hb'' he => ?_,
    fun s t hst => ⟨fun b' hb' he => ?_, fun left right b' hu => ?_⟩⟩
  · have hrun := unifying_unify hb left right
    rw [hu] at hrun
    have hunites : b'.Unites left right := hrun.unitedBy hb rfl
    exact ⟨hunites, fun b'' hb'' he => hunites.of_extends hb'' he⟩
  · have hunites : List.Forall₂ b'.Unites lefts rights :=
      (unifying_of_unifyAll hb hu).unitedBy hb rfl
    have hkept : List.Forall₂ b''.Unites lefts rights :=
      hunites.imp fun s t hst => hst.of_extends hb'' he
    exact List.forall₂_map_left_iff.2 (List.forall₂_map_right_iff.2 hkept)
  · exact Unites.of_extends hst hb' he
  · obtain ⟨hb', he⟩ := unify_wellFormed hb hu
    exact Unites.of_extends hst hb' he

/-- `[X, 0.0, Z]` and `[[_, Y], -0.0, _]` unify. They match, and still do when `Y` is bound to a
number that is not equal to itself; that number matches itself, too. -/
theorem unified_terms_match_sample :
    ∃ b b', unify (.list [.var "X", .num (.float 0.0), .var "Z"])
        (.list [.list [.var "_", .var "Y"], .num (.float (-0.0)), .var "_"]) .empty = some b ∧
      unify (.var "Y") (.num (.float (0.0 / 0.0))) b = some b' ∧
      Number.sameValue (.float (0.0 / 0.0)) (.float (0.0 / 0.0)) = false ∧
      (b.resolveDeep (.list [.var "X", .num (.float 0.0), .var "Z"])).Matches
        (b.resolveDeep (.list [.list [.var "_", .var "Y"], .num (.float (-0.0)), .var "_"])) ∧
      (b'.resolveDeep (.list [.var "X", .num (.float 0.0), .var "Z"])).Matches
        (b'.resolveDeep (.list [.list [.var "_", .var "Y"], .num (.float (-0.0)), .var "_"])) ∧
      (b'.resolveDeep (.var "Y")).Matches (.num (.float (0.0 / 0.0))) := by
  have hfirst : unify (.list [.var "X", .num (.float 0.0), .var "Z"])
      (.list [.list [.var "_", .var "Y"], .num (.float (-0.0)), .var "_"]) .empty =
      some (Bindings.empty.extend "X" (.list [.var "_", .var "Y"])) := rfl
  have hsecond : unify (.var "Y") (.num (.float (0.0 / 0.0)))
      (Bindings.empty.extend "X" (.list [.var "_", .var "Y"])) =
      some ((Bindings.empty.extend "X" (.list [.var "_", .var "Y"])).extend "Y"
        (.num (.float (0.0 / 0.0)))) := rfl
  obtain ⟨hmatch, hkept⟩ := (unified_terms_match wellFormed_empty).1 _ _ _ hfirst
  have hb := (unify_wellFormed wellFormed_empty hfirst).1
  obtain ⟨hb', he⟩ := unify_wellFormed hb hsecond
  exact ⟨_, _, hfirst, hsecond, by decide, hmatch, hkept _ hb' he,
    ((unified_terms_match hb).1 _ _ _ hsecond).1⟩

end StackLogic.Horn
