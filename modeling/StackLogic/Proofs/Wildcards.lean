import StackLogic.Proofs.Matching

/-!
# When terms with `_` unify

A substitution that leaves `_` alone fits a term to a value if the value matches the term with its
variables replaced: `_` may be anything, and a number may be any other of the same value. If a
substitution fits both sides of a problem to one value, and fits the bindings as well, unification
succeeds and keeps it that way (`Unifying.exists_of_fits`).

That needs chains of matches, and matches cannot be chained in general. They can be through a term
without `_`, as long as having the same value is an equivalence of the numbers that take part
(`Number.Comparable`).
-/

namespace StackLogic.Horn

/-- Having the same value is an equivalence of these numbers. Of numbers in general it is not: two
integers may both have the value of one double, and one double does not have its own value. -/
structure Number.Comparable (N : Number → Prop) : Prop where
  refl : ∀ n, N n → n.sameValue n = true
  symm : ∀ m n, N m → N n → m.sameValue n = true → n.sameValue m = true
  trans : ∀ l m n, N l → N m → N n → l.sameValue m = true → m.sameValue n = true →
    l.sameValue n = true

namespace Term

mutual

/-- The numbers in a term. -/
def numbers : Term → List Number
  | num n => [n]
  | list items => numbersAll items
  | _ => []

/-- The numbers in several terms. -/
def numbersAll : List Term → List Number
  | [] => []
  | t :: rest => t.numbers ++ numbersAll rest

end

theorem mem_numbersAll {n : Number} {ts : List Term} :
    n ∈ numbersAll ts ↔ ∃ t ∈ ts, n ∈ t.numbers := by
  induction ts with
  | nil => simp [numbersAll]
  | cons t rest ih => simp [numbersAll, ih]

/-- All numbers in the term have the property. -/
def Valued (N : Number → Prop) (t : Term) : Prop := ∀ n ∈ t.numbers, N n

/-- The anonymous variable is not in the term. -/
def Named (t : Term) : Prop := anonymousName ∉ t.variableNames

variable {N : Number → Prop} {σ f : String → Term} {s t v : Term} {items : List Term}

theorem valued_num {n : Number} : (num n).Valued N ↔ N n := by
  simp [Valued, numbers]

theorem valued_list : (list items).Valued N ↔ ∀ t ∈ items, t.Valued N := by
  simp only [Valued, numbers, mem_numbersAll]
  exact ⟨fun h t ht n hn => h n ⟨t, ht, hn⟩, fun h n ⟨t, ht, hn⟩ => h t ht n hn⟩

theorem hereditary_valued : Hereditary (Valued N) := valued_list.1

/-- Substitutions with numbers of the kind keep the numbers of a term of the kind. -/
theorem Valued.subst (ht : t.Valued N) (hσ : ∀ x, (σ x).Valued N) : (t.subst σ).Valued N := by
  induction t with
  | var name => exact hσ name
  | atom | num | str => exact ht
  | list items ih =>
    rw [subst_list]
    refine valued_list.2 fun u hu => ?_
    obtain ⟨t, hmem, rfl⟩ := List.mem_map.1 hu
    exact ih t hmem (valued_list.1 ht t hmem)

theorem named_var {x : String} : (var x).Named ↔ x ≠ anonymousName := by
  simp [Named, eq_comm]

theorem named_list : (list items).Named ↔ ∀ t ∈ items, t.Named := by
  simp [Named]

theorem hereditary_named : Hereditary Named := named_list.1

/-- Substitutions without `_` keep a term without `_`. -/
theorem Named.subst (ht : t.Named) (hσ : ∀ x, x ≠ anonymousName → (σ x).Named) :
    (t.subst σ).Named := by
  intro hmem
  obtain ⟨x, hx, hanonymous⟩ := (mem_variableNames_subst t).1 hmem
  refine hσ x ?_ hanonymous
  rintro rfl
  exact ht hx

/-! ## Chains of matches -/

theorem forall₂_of_mem {α β : Type} {R S : α → β → Prop} {as : List α} {cs : List β}
    (hRS : ∀ a ∈ as, ∀ c ∈ cs, R a c → S a c) (h : List.Forall₂ R as cs) :
    List.Forall₂ S as cs := by
  induction h with
  | nil => exact .nil
  | cons hac _ ih =>
    refine .cons (hRS _ (by simp) _ (by simp) hac) (ih fun a ha c hc => ?_)
    exact hRS a (by simp [ha]) c (by simp [hc])

theorem forall₂_comp {α β γ : Type} {R : α → β → Prop} {S : β → γ → Prop} {as : List α}
    {bs : List β} {cs : List γ} (hR : List.Forall₂ R as bs) (hS : List.Forall₂ S bs cs) :
    List.Forall₂ (fun a c => ∃ b ∈ bs, R a b ∧ S b c) as cs := by
  induction hR generalizing cs with
  | nil =>
    cases hS
    exact .nil
  | cons hab _ ih =>
    cases hS with
    | cons hbc hrest =>
      refine .cons ⟨_, by simp, hab, hbc⟩ ((ih hrest).imp fun a c => ?_)
      rintro ⟨b, hb, hboth⟩
      exact ⟨b, by simp [hb], hboth⟩

/-- Matches can be chained through a term without `_`. -/
theorem Matches.trans (hN : Number.Comparable N) (hnamed : v.Named) (hs : s.Valued N)
    (hv : v.Valued N) (ht : t.Valued N) (hsv : s.Matches v) (hvt : v.Matches t) : s.Matches t := by
  induction v generalizing s t with
  | var name =>
    cases hsv with
    | anonymousLeft => exact .anonymousLeft t
    | anonymousRight => exact absurd rfl (named_var.1 hnamed)
    | var => exact hvt
  | atom name =>
    cases hsv with
    | anonymousLeft => exact .anonymousLeft t
    | atom => exact hvt
  | str text =>
    cases hsv with
    | anonymousLeft => exact .anonymousLeft t
    | str => exact hvt
  | num m =>
    cases hsv with
    | anonymousLeft => exact .anonymousLeft t
    | num hl =>
      cases hvt with
      | anonymousRight => exact .anonymousRight _
      | num hr =>
        rw [valued_num] at hs hv ht
        rcases hl with rfl | hl
        · exact .num hr
        · rcases hr with rfl | hr
          · exact .num (.inr hl)
          · exact .num (.inr (hN.trans _ _ _ hs hv ht hl hr))
  | list items ih =>
    cases hsv with
    | anonymousLeft => exact .anonymousLeft t
    | list hl =>
      cases hvt with
      | anonymousRight => exact .anonymousRight _
      | list hr =>
        rw [valued_list] at hs hv ht
        refine .list (forall₂_of_mem ?_ (forall₂_comp hl hr))
        rintro a ha c hc ⟨d, hd, had, hdc⟩
        exact ih d hd (named_list.1 hnamed d hd) (hs a ha) (hv d hd) (ht c hc) had hdc

/-- Where numbers are comparable, matching is symmetric. -/
theorem Matches.symm (hN : Number.Comparable N) (hs : s.Valued N) (ht : t.Valued N)
    (h : s.Matches t) : t.Matches s := by
  induction s generalizing t with
  | list items ih =>
    cases h with
    | anonymousRight => exact .anonymousLeft _
    | list h =>
      rw [valued_list] at hs ht
      refine .list (forall₂_of_mem ?_ h.flip)
      intro c hc a ha
      exact ih a ha (hs a ha) (ht c hc)
  | num m =>
    cases h with
    | anonymousRight => exact .anonymousLeft _
    | num h =>
      rw [valued_num] at hs ht
      exact .num (h.imp Eq.symm (hN.symm _ _ hs ht))
  | var name =>
    cases h with
    | anonymousLeft => exact .anonymousRight _
    | anonymousRight => exact .anonymousLeft _
    | var => exact .var name
  | atom name =>
    cases h with
    | anonymousRight => exact .anonymousLeft _
    | atom => exact .atom name
  | str text =>
    cases h with
    | anonymousRight => exact .anonymousLeft _
    | str => exact .str text

theorem weightAll_le_of_forall₂ {ts us : List Term}
    (h : List.Forall₂ (fun t u => t.weight ≤ u.weight) ts us) : weightAll ts ≤ weightAll us := by
  induction h with
  | nil => exact Nat.le_refl _
  | cons hle _ ih =>
    simp only [weightAll]
    omega

theorem one_le_weight (t : Term) : 1 ≤ t.weight := by
  cases t <;> simp [weight]

/-- A match can only be smaller than a term without `_`. -/
theorem Matches.weight_le (h : s.Matches v) (hv : v.Named) : s.weight ≤ v.weight := by
  induction v generalizing s with
  | var name =>
    cases h with
    | anonymousLeft => exact one_le_weight _
    | anonymousRight => exact absurd rfl (named_var.1 hv)
    | var => exact Nat.le_refl _
  | atom | num | str => cases h <;> exact Nat.le_refl _
  | list items ih =>
    cases h with
    | anonymousLeft => exact one_le_weight _
    | list h =>
      simp only [weight]
      refine Nat.add_le_add_left (weightAll_le_of_forall₂ (forall₂_of_mem ?_ h)) 1
      intro a _ c hc hac
      exact ih c hc hac (named_list.1 hv c hc)

/-- Replacing variables by less definite terms leaves a match. -/
theorem Matches.subst_of_forall (h : (t.subst σ).Matches v) (hv : v.Named)
    (hf : ∀ x ∈ t.variableNames, ∀ u : Term, u.Named → u.Valued N → (σ x).Matches u →
      (f x).Matches u) (hvalued : v.Valued N) : (t.subst f).Matches v := by
  induction t generalizing v with
  | var name => exact hf name (by simp) v hv hvalued h
  | atom | num | str => exact h
  | list items ih =>
    rw [subst_list] at h ⊢
    cases h with
    | anonymousRight => exact absurd rfl (named_var.1 hv)
    | list h =>
      refine .list (List.forall₂_map_left_iff.2 (forall₂_of_mem ?_ (List.forall₂_map_left_iff.1 h)))
      intro t ht c hc htc
      refine ih t ht htc (named_list.1 hv c hc) (fun x hx => ?_) (valued_list.1 hvalued c hc)
      exact hf x (mem_variableNames_list.2 ⟨t, ht, hx⟩)

end Term

open Bindings Term

variable {N : Number → Prop} {σ : String → Term} {b b' : Bindings} {t u v left right : Term}
  {x : String} {p : Problem} {result : Option Bindings}

/-! ## Substitutions that fit -/

/-- The substitution leaves `_` alone and brings in neither `_` nor other numbers. -/
structure Filling (N : Number → Prop) (σ : String → Term) : Prop where
  anonymous : σ anonymousName = .var anonymousName
  named : ∀ x, x ≠ anonymousName → (σ x).Named
  valued : ∀ x, (σ x).Valued N

/-- The value of each bound variable matches what it is bound to. -/
def Bindings.FitBy (b : Bindings) (σ : String → Term) : Prop :=
  ∀ x t, b.get? x = some t → (t.subst σ).Matches (σ x)

theorem Bindings.fitBy_empty (σ : String → Term) : empty.FitBy σ := by
  intro x t h
  simp at h

/-- A substitution fits one more binding if it matches the two sides of it. -/
theorem Bindings.FitBy.extend (hb : b.FitBy σ) (hx : (t.subst σ).Matches (σ x)) :
    (b.extend x t).FitBy σ := by
  intro y u hy
  rw [get?_extend] at hy
  split at hy
  next hyx =>
    cases hy
    rw [hyx]
    exact hx
  next => exact hb y u hy

/-- The substitution fits both terms to one value. -/
def Fits (N : Number → Prop) (σ : String → Term) (left right : Term) : Prop :=
  ∃ v : Term, v.Named ∧ v.Valued N ∧ (left.subst σ).Matches v ∧ (right.subst σ).Matches v

/-- The substitution fits both sides to one value, as a whole or element by element. -/
def Problem.FitBy (N : Number → Prop) (σ : String → Term) : Problem → Prop
  | .pair left right => Fits N σ left right
  | .each lefts rights => List.Forall₂ (Fits N σ) lefts rights

/-- What a term resolves to fits the same values as the term. -/
theorem Bindings.Resolves.matches (hr : Resolves b t u) (hN : Number.Comparable N)
    (hσ : Filling N σ) (hw : b.WellFormed) (hvalued : b.All (Valued N)) (hb : b.FitBy σ)
    (hv : v.Valued N) (h : (t.subst σ).Matches v) : (u.subst σ).Matches v := by
  induction hr with
  | @bound x t _ hg _ ih =>
    have hx : x ≠ anonymousName := by
      rintro rfl
      rw [hw.anonymous_free] at hg
      cases hg
    refine ih ?_
    exact .trans hN (hσ.named x hx) ((hvalued x t hg).2.subst hσ.valued) (hσ.valued x) hv
      (hb x t hg) h
  | free | value => exact h

/-- So does the term with all bound variables replaced. -/
theorem Bindings.FitBy.matches_resolveDeep (hb : b.FitBy σ) (hN : Number.Comparable N)
    (hσ : Filling N σ) (hw : b.WellFormed) (hvalued : b.All (Valued N)) (hnamed : v.Named)
    (hv : v.Valued N) (h : (t.subst σ).Matches v) : ((b.resolveDeep t).subst σ).Matches v := by
  have hexpand : ∀ n (t v : Term), v.Named → v.Valued N → (t.subst σ).Matches v →
      ((b.expand n t).subst σ).Matches v := by
    intro n
    induction n with
    | zero => exact fun t v _ _ h => h
    | succ n ih =>
      intro t v hnamed hv h
      rw [expand, subst_subst]
      refine h.subst_of_forall hnamed (fun x _ u hu hun hxu => ?_) hv
      cases hg : b.get? x with
      | none => exact hxu
      | some t' =>
        have hne : x ≠ anonymousName := by
          rintro rfl
          rw [hw.anonymous_free] at hg
          cases hg
        refine ih t' u hu hun ?_
        exact .trans hN (hσ.named x hne) ((hvalued x t' hg).2.subst hσ.valued) (hσ.valued x) hun
          (hb x t' hg) hxu
  exact hexpand b.weight t v hnamed hv h

/-- A substitution that fits both sides to one value fits the variable and the term that meet. -/
theorem Meets.matches (hm : Meets b left right x t) (hN : Number.Comparable N)
    (hσ : Filling N σ) (hw : b.WellFormed) (hvalued : b.All (Valued N)) (hb : b.FitBy σ)
    (hl : left.Valued N) (hr : right.Valued N) (hfits : Fits N σ left right) :
    (t.subst σ).Matches (σ x) := by
  obtain ⟨v, hnamed, hv, hleft, hright⟩ := hfits
  obtain ⟨hx, ht⟩ := hm.all hvalued hl hr
  have hboth : (σ x).Matches v ∧ (t.subst σ).Matches v := by
    cases hm with
    | left hxl htr =>
      exact ⟨hxl.matches hN hσ hw hvalued hb hv hleft, htr.matches hN hσ hw hvalued hb hv hright⟩
    | right htl hxr =>
      exact ⟨hxr.matches hN hσ hw hvalued hb hv hright, htl.matches hN hσ hw hvalued hb hv hleft⟩
  have hback := hboth.1.symm hN (hσ.valued x) hv
  exact hboth.2.trans hN hnamed (ht.subst hσ.valued) hv (hσ.valued x) hback

/-- Constants that fit one value are the same. -/
theorem sameConstant_of_fits {s t : Term} (hN : Number.Comparable N) (hσ : Filling N σ)
    (hs : s.Valued N) (ht : t.Valued N) (hsv : ∀ x, s ≠ .var x) (htv : ∀ x, t ≠ .var x)
    (hst : ∀ xs ys, s = .list xs → t ≠ .list ys) (h : Fits N σ s t) :
    s.sameConstant t = true := by
  obtain ⟨v, hnamed, hv, hsm, htm⟩ := h
  have hback := htm.symm hN (ht.subst hσ.valued) hv
  have hboth := hsm.trans hN hnamed (hs.subst hσ.valued) hv (ht.subst hσ.valued) hback
  cases s with
  | var x => exact absurd rfl (hsv x)
  | list xs =>
    cases t with
    | var y => exact absurd rfl (htv y)
    | list ys => exact absurd rfl (hst xs ys rfl)
    | _ =>
      rw [subst_list] at hboth
      cases hboth
  | num m =>
    cases t with
    | var y => exact absurd rfl (htv y)
    | num n =>
      cases hboth with
      | num h =>
        rcases h with rfl | h
        · exact hN.refl m (valued_num.1 hs)
        · exact h
    | list ys =>
      rw [subst_list] at hboth
      cases hboth
    | _ => cases hboth
  | _ =>
    cases t with
    | var y => exact absurd rfl (htv y)
    | list ys =>
      rw [subst_list] at hboth
      cases hboth
    | _ =>
      cases hboth <;> simp [sameConstant]

/-- A list fits only lists. -/
theorem exists_list_of_matches {xs : List Term} (hnamed : v.Named)
    (h : ((Term.list xs).subst σ).Matches v) :
    ∃ vs, v = .list vs ∧ List.Forall₂ (fun x v => (x.subst σ).Matches v) xs vs := by
  rw [subst_list] at h
  cases h with
  | anonymousRight => exact absurd rfl (named_var.1 hnamed)
  | list h => exact ⟨_, rfl, List.forall₂_map_left_iff.1 h⟩

/-- Lists that fit have items that fit. -/
theorem fits_of_lists {xs ys : List Term} (h : Fits N σ (.list xs) (.list ys)) :
    List.Forall₂ (Fits N σ) xs ys := by
  obtain ⟨v, hnamed, hv, hleft, hright⟩ := h
  obtain ⟨vs, rfl, hxs⟩ := exists_list_of_matches hnamed hleft
  obtain ⟨ws, hws, hys⟩ := exists_list_of_matches hnamed hright
  cases hws
  refine (forall₂_comp hxs hys.flip).imp fun x y => ?_
  rintro ⟨w, hw, hxw, hyw⟩
  exact ⟨w, named_list.1 hnamed w hw, valued_list.1 hv w hw, hxw, hyw⟩

/-- If a substitution fits the bindings and fits both sides to one value, unification succeeds and the
substitution fits the extended bindings. -/
theorem Unifying.exists_of_fits (h : Unifying p b result) (hN : Number.Comparable N)
    (hσ : Filling N σ) (hp : p.All (Valued N)) (hw : b.WellFormed) (hvalued : b.All (Valued N))
    (hb : b.FitBy σ) (hfits : p.FitBy N σ) : ∃ b', result = some b' ∧ b'.FitBy σ := by
  have hresolved : ∀ {b : Bindings} {left right s t : Term}, b.WellFormed → b.All (Valued N) →
      b.FitBy σ → Fits N σ left right → Resolves b left s → Resolves b right t → Fits N σ s t := by
    rintro b left right s t hw hvalued hb ⟨v, hnamed, hv, hleft, hright⟩ hs ht
    exact ⟨v, hnamed, hv, hs.matches hN hσ hw hvalued hb hv hleft,
      ht.matches hN hσ hw hvalued hb hv hright⟩
  induction h with
  | anonymous | same | done => exact ⟨_, rfl, hb⟩
  | bind _ hm _ => exact ⟨_, rfl, hb.extend (hm.matches hN hσ hw hvalued hb hp.1 hp.2 hfits)⟩
  | @occursCheck _ _ b x t hn hm ho =>
    -- the value of the variable would be larger than itself
    have hmem : x ∈ (b.resolveDeep t).variableNames := (ho.eq_true_iff hw).1 rfl
    have hx := hσ.named x (hm.ne_anonymous hw hn).1
    have hmatch := hm.matches hN hσ hw hvalued hb hp.1 hp.2 hfits
    have hle := (hb.matches_resolveDeep hN hσ hw hvalued hx (hσ.valued x) hmatch).weight_le hx
    have hlt := Term.weight_lt_of_mem σ _ hmem hm.resolveDeep_ne
    omega
  | lists _ hl hr _ _ ih =>
    have hxs := hereditary_valued (hvalued.of_resolves hl hp.1)
    have hys := hereditary_valued (hvalued.of_resolves hr hp.2)
    exact ih ⟨hxs, hys⟩ hw hvalued hb (fits_of_lists (hresolved hw hvalued hb hfits hl hr))
  | lengths _ hl hr hlen =>
    exact absurd (fits_of_lists (hresolved hw hvalued hb hfits hl hr)).length_eq hlen
  | @constants _ _ s t _ _ hl hr hs ht hst =>
    have hvs := hvalued.of_resolves hl hp.1
    have hvt := hvalued.of_resolves hr hp.2
    rw [if_pos (sameConstant_of_fits hN hσ hvs hvt hs ht hst (hresolved hw hvalued hb hfits hl hr))]
    exact ⟨_, rfl, hb⟩
  | next first _ ih₁ ih₂ =>
    obtain ⟨⟨hx, hxs⟩, ⟨hy, hys⟩⟩ := And.imp List.forall_mem_cons.1 List.forall_mem_cons.1 hp
    cases hfits with
    | cons hxy hrest =>
      obtain ⟨b₁, hb₁, hfit₁⟩ := ih₁ ⟨hx, hy⟩ hw hvalued hb hxy
      cases hb₁
      exact ih₂ ⟨hxs, hys⟩ (first.wellFormed hw rfl).1
        (first.all hereditary_valued ⟨hx, hy⟩ hvalued rfl) hfit₁ hrest
  | stop _ ih =>
    obtain ⟨⟨hx, _⟩, ⟨hy, _⟩⟩ := And.imp List.forall_mem_cons.1 List.forall_mem_cons.1 hp
    cases hfits with
    | cons hxy _ =>
      obtain ⟨_, habsurd, _⟩ := ih ⟨hx, hy⟩ hw hvalued hb hxy
      cases habsurd

end StackLogic.Horn
