import StackLogic.Proofs.IntegerOperators
import StackLogic.Proofs.Reading

/-!
# Expressions of integers

`Expr.integer?` is the value of an expression among all integers. An expression that is made of
integers only (`Expr.Integral`) either fails or has this value, and so has each of its parts
(`integer_expressions_exact`). The proof is an induction over such expressions, with one lemma for
each kind of node.
-/

namespace StackLogic.Horn

/-! ## Values among all integers -/

/-- The value of a function among all integers, for those that are functions of integers. -/
def Function.result? : Function → List Int → Option Int
  | abs, [n] => some |n|
  | max, ns => ns.max?
  | min, ns => ns.min?
  | _, _ => none

namespace Expr

mutual

/-- The value of an expression among all integers. -/
def integer? (b : Bindings) : Expr → Option Int
  | num (.int n) => some n.toInt
  | num (.float _) => none
  | var name =>
    match b.resolve (.var name) with
    | .num (.int n) => some n.toInt
    | _ => none
  | neg e => (e.integer? b).map fun n => -n
  | binary op left right =>
    (left.integer? b).bind fun m => (right.integer? b).bind fun n => op.result? m n
  | call f args => (integersAll? b args).bind f.result?

/-- The values of several expressions among all integers. -/
def integersAll? (b : Bindings) : List Expr → Option (List Int)
  | [] => some []
  | e :: rest => (e.integer? b).bind fun n => (integersAll? b rest).map (n :: ·)

end

/-- The expression is made of integers: of integer literals and variables bound to integers, with
all operators but `/`, and the functions `abs`, `max` and `min`. No exponent has a negative
value. -/
inductive Integral (b : Bindings) : Expr → Prop where
  | num (n : Int64) : Integral b (.num (.int n))
  | var {name : String} {n : Int64} (h : b.resolve (.var name) = .num (.int n)) :
      Integral b (.var name)
  | neg {e : Expr} (h : Integral b e) : Integral b (.neg e)
  | binary {op : BinaryOp} {left right : Expr} (hop : op ≠ .div) (hl : Integral b left)
      (hr : Integral b right)
      (hpow : op = .pow → ∀ n : Int64, right.eval b = .ok (.int n) → 0 ≤ n.toInt) :
      Integral b (.binary op left right)
  | call {f : Function} {args : List Expr} (hf : f = .abs ∨ f = .max ∨ f = .min)
      (h : ∀ e ∈ args, Integral b e) : Integral b (.call f args)

/-- The first expression is the second one or a part of it. -/
inductive Within : Expr → Expr → Prop where
  | self (e : Expr) : Within e e
  | neg {s e : Expr} (h : Within s e) : Within s (.neg e)
  | left {s l r : Expr} {op : BinaryOp} (h : Within s l) : Within s (.binary op l r)
  | right {s l r : Expr} {op : BinaryOp} (h : Within s r) : Within s (.binary op l r)
  | argument {s e : Expr} {f : Function} {args : List Expr} (he : e ∈ args) (h : Within s e) :
      Within s (.call f args)

end Expr

/-! ## Functions of integers -/

namespace Number

variable {a c : Int64} {ns : List Int64} {v : Number}

theorem holds_gt_int : Comparison.holds .gt (.int a) (.int c) = true ↔ c.toInt < a.toInt := by
  show ((compare a c == .gt) = true) ↔ _
  rw [beq_iff_eq, ← Int64.lt_iff_toInt_lt]
  exact Std.compare_eq_gt

theorem holds_lt_int : Comparison.holds .lt (.int a) (.int c) = true ↔ a.toInt < c.toInt := by
  show ((compare a c == .lt) = true) ↔ _
  rw [beq_iff_eq, ← Int64.lt_iff_toInt_lt]
  exact Std.compare_eq_lt

/-- Keeping the better of two integers again and again is folding with their choice. -/
theorem best_int {c : Comparison} {choose : Int → Int → Int}
    (hc : ∀ a d : Int64,
      (if c.holds (.int d) (.int a) then d.toInt else a.toInt) = choose a.toInt d.toInt)
    (first : Int64) (others : List Int64) :
    ∃ w : Int64, best c (.int first) (others.map int) = .int w ∧
      (others.map Int64.toInt).foldl choose first.toInt = w.toInt := by
  induction others generalizing first with
  | nil => exact ⟨first, rfl, rfl⟩
  | cons next rest ih =>
    have hnext := hc first next
    rw [best, List.map_cons, List.foldl_cons, List.map_cons, List.foldl_cons, ← hnext]
    split
    next => exact ih next
    next => exact ih first

/-- The greatest word is the greatest integer. -/
theorem applyFunction_max (first : Int64) (others : List Int64) :
    ∃ w : Int64, applyFunction .max ((first :: others).map int) = .ok (.int w) ∧
      ((first :: others).map Int64.toInt).max? = some w.toInt := by
  have hc : ∀ a d : Int64,
      (if Comparison.holds .gt (.int d) (.int a) then d.toInt else a.toInt) =
        max a.toInt d.toInt := by
    intro a d
    rw [if_congr holds_gt_int rfl rfl]
    split <;> omega
  obtain ⟨w, hbest, hfold⟩ := best_int hc first others
  refine ⟨w, congrArg Except.ok hbest, ?_⟩
  rw [List.map_cons, List.max?_cons', hfold]

theorem applyFunction_min (first : Int64) (others : List Int64) :
    ∃ w : Int64, applyFunction .min ((first :: others).map int) = .ok (.int w) ∧
      ((first :: others).map Int64.toInt).min? = some w.toInt := by
  have hc : ∀ a d : Int64,
      (if Comparison.holds .lt (.int d) (.int a) then d.toInt else a.toInt) =
        min a.toInt d.toInt := by
    intro a d
    rw [if_congr holds_lt_int rfl rfl]
    split <;> omega
  obtain ⟨w, hbest, hfold⟩ := best_int hc first others
  refine ⟨w, congrArg Except.ok hbest, ?_⟩
  rw [List.map_cons, List.min?_cons', hfold]

/-- What a function of integers gives is its result among all integers. -/
theorem exists_result_of_applyFunction {f : Function} (hf : f = .abs ∨ f = .max ∨ f = .min)
    (h : applyFunction f (ns.map int) = .ok v) :
    ∃ w : Int64, v = .int w ∧ f.result? (ns.map Int64.toInt) = some w.toInt := by
  rcases hf with rfl | rfl | rfl
  · rcases ns with _ | ⟨n, _ | ⟨next, rest⟩⟩
    · cases h
    · obtain ⟨w, rfl, hw⟩ := eq_int_of_exact h
      refine ⟨w, rfl, congrArg some ?_⟩
      rw [hw, Int.natCast_natAbs]
    · cases h
  · cases ns with
    | nil => cases h
    | cons first others =>
      obtain ⟨w, hw, hmax⟩ := applyFunction_max first others
      exact ⟨w, Except.ok.inj (h.symm.trans hw), hmax⟩
  · cases ns with
    | nil => cases h
    | cons first others =>
      obtain ⟨w, hw, hmin⟩ := applyFunction_min first others
      exact ⟨w, Except.ok.inj (h.symm.trans hw), hmin⟩

end Number

/-! ## Evaluation -/

namespace Expr

open Grammar (exists_of_bind_eq_ok)

variable {b : Bindings} {s e left right : Expr} {op : BinaryOp} {f : Function} {args : List Expr}
  {v : Number}

theorem eval_neg_eq_ok (h : (neg e).eval b = .ok v) :
    ∃ u, e.eval b = .ok u ∧ Number.negate u = .ok v := by
  rw [eval] at h
  exact exists_of_bind_eq_ok h

theorem eval_binary_eq_ok (h : (binary op left right).eval b = .ok v) :
    ∃ l r, left.eval b = .ok l ∧ right.eval b = .ok r ∧ Number.apply op l r = .ok v := by
  rw [eval] at h
  obtain ⟨l, hl, h⟩ := exists_of_bind_eq_ok h
  obtain ⟨r, hr, h⟩ := exists_of_bind_eq_ok h
  exact ⟨l, r, hl, hr, h⟩

theorem eval_call_eq_ok (h : (call f args).eval b = .ok v) :
    ∃ vs, evalAll b args = .ok vs ∧ Number.applyFunction f vs = .ok v := by
  rw [eval] at h
  exact exists_of_bind_eq_ok h

theorem evalAll_cons_eq_ok {vs : List Number} (h : evalAll b (e :: args) = .ok vs) :
    ∃ u us, e.eval b = .ok u ∧ evalAll b args = .ok us ∧ vs = u :: us := by
  rw [evalAll] at h
  obtain ⟨u, hu, h⟩ := exists_of_bind_eq_ok h
  obtain ⟨us, hus, h⟩ := exists_of_bind_eq_ok h
  exact ⟨u, us, hu, hus, (Except.ok.inj h).symm⟩

/-- The value is the integer that the expression has among all integers. -/
def Exactly (b : Bindings) (e : Expr) (v : Number) : Prop :=
  ∃ n : Int64, v = .int n ∧ e.integer? b = some n.toInt

/-- Arguments with exact values have their values among all integers. -/
theorem exactly_evalAll (hargs : ∀ e ∈ args, ∀ v, e.eval b = .ok v → Exactly b e v)
    {vs : List Number} (h : evalAll b args = .ok vs) :
    ∃ ns : List Int64, vs = ns.map Number.int ∧
      integersAll? b args = some (ns.map Int64.toInt) := by
  induction args generalizing vs with
  | nil =>
    cases h
    exact ⟨[], rfl, rfl⟩
  | cons e rest ih =>
    obtain ⟨hfirst, hrest⟩ := List.forall_mem_cons.1 hargs
    obtain ⟨u, us, hu, hus, rfl⟩ := evalAll_cons_eq_ok h
    obtain ⟨n, rfl, hn⟩ := hfirst u hu
    obtain ⟨ns, rfl, hns⟩ := ih hrest hus
    refine ⟨n :: ns, rfl, ?_⟩
    rw [integersAll?, hn, hns]
    rfl

/-- An expression of integers that has a value has the value that it has among all integers. -/
theorem Integral.exactly (he : e.Integral b) : ∀ v, e.eval b = .ok v → Exactly b e v := by
  induction he with
  | num n =>
    intro v hv
    rw [eval] at hv
    exact ⟨n, (Except.ok.inj hv).symm, rfl⟩
  | @var name n h =>
    intro v hv
    rw [eval, h] at hv
    refine ⟨n, (Except.ok.inj hv).symm, ?_⟩
    rw [integer?, h]
  | neg _ ih =>
    intro v hv
    obtain ⟨u, hu, hneg⟩ := eval_neg_eq_ok hv
    obtain ⟨n, rfl, hn⟩ := ih u hu
    obtain ⟨w, rfl, hw⟩ := Number.eq_int_of_exact hneg
    refine ⟨w, rfl, ?_⟩
    rw [integer?, hn, hw]
    rfl
  | @binary op left right hop _ _ hpow ihl ihr =>
    intro v hv
    obtain ⟨l, r, hl, hr, happly⟩ := eval_binary_eq_ok hv
    obtain ⟨m, rfl, hm⟩ := ihl l hl
    obtain ⟨n, rfl, hn⟩ := ihr r hr
    obtain ⟨w, rfl, hw⟩ :=
      BinaryOp.exists_result_of_apply hop (fun hp => hpow hp n hr) happly
    refine ⟨w, rfl, ?_⟩
    rw [integer?, hm, hn]
    exact hw
  | call hf _ ih =>
    intro v hv
    obtain ⟨vs, hvs, hcall⟩ := eval_call_eq_ok hv
    obtain ⟨ns, rfl, hns⟩ := exactly_evalAll ih hvs
    obtain ⟨w, rfl, hw⟩ := Number.exists_result_of_applyFunction hf hcall
    refine ⟨w, rfl, ?_⟩
    rw [integer?, hns]
    exact hw

theorem exists_eval_of_mem (he : e ∈ args) {vs : List Number} (h : evalAll b args = .ok vs) :
    ∃ u, e.eval b = .ok u := by
  induction args generalizing vs with
  | nil => cases he
  | cons first rest ih =>
    obtain ⟨u, us, hu, hus, -⟩ := evalAll_cons_eq_ok h
    rcases List.mem_cons.1 he with rfl | hmem
    · exact ⟨u, hu⟩
    · exact ih hmem hus

/-- Evaluation is strict: an expression has a value only if all its parts have one. -/
theorem Within.exists_eval (hs : s.Within e) : ∀ v, e.eval b = .ok v → ∃ u, s.eval b = .ok u := by
  induction hs with
  | self => exact fun v hv => ⟨v, hv⟩
  | neg _ ih =>
    intro v hv
    obtain ⟨u, hu, -⟩ := eval_neg_eq_ok hv
    exact ih u hu
  | left _ ih =>
    intro v hv
    obtain ⟨l, r, hl, -, -⟩ := eval_binary_eq_ok hv
    exact ih l hl
  | right _ ih =>
    intro v hv
    obtain ⟨l, r, -, hr, -⟩ := eval_binary_eq_ok hv
    exact ih r hr
  | argument he _ ih =>
    intro v hv
    obtain ⟨vs, hvs, -⟩ := eval_call_eq_ok hv
    obtain ⟨u, hu⟩ := exists_eval_of_mem he hvs
    exact ih u hu

/-- The parts of an expression of integers are expressions of integers. -/
theorem Within.integral (hs : s.Within e) (he : e.Integral b) : s.Integral b := by
  induction hs with
  | self => exact he
  | neg _ ih =>
    cases he with
    | neg h => exact ih h
  | left _ ih =>
    cases he with
    | binary _ hl _ _ => exact ih hl
  | right _ ih =>
    cases he with
    | binary _ _ hr _ => exact ih hr
  | argument he' _ ih =>
    cases he with
    | call _ h => exact ih (h _ he')

end Expr

/-- Quotient and remainder among all integers belong together, and the remainder lies between zero
and the divisor. -/
theorem result?_floorDiv_mod {x y q r : Int} (hq : BinaryOp.floorDiv.result? x y = some q)
    (hr : BinaryOp.mod.result? x y = some r) :
    x = q * y + r ∧ (0 ≤ r ∧ r < y ∨ y < r ∧ r ≤ 0) := by
  obtain ⟨hy, hq⟩ := Option.ite_none_left_eq_some.1 hq
  obtain ⟨-, hr⟩ := Option.ite_none_left_eq_some.1 hr
  have hsum := Int.fdiv_mul_add_fmod x y
  rw [← Option.some.inj hq, ← Option.some.inj hr]
  refine ⟨hsum.symm, ?_⟩
  rcases Int.lt_or_gt_of_ne hy with hneg | hpos
  · exact .inr ((Int.fdiv_fmod_unique' hneg).1 ⟨rfl, rfl⟩).2
  · exact .inl ((Int.fdiv_fmod_unique hpos).1 ⟨rfl, rfl⟩).2

/-- If an expression of integers has a value, it is the value that it has among all integers, and so
is the value of each of its parts; no step of an operator in it wraps around. -/
theorem integer_expressions_exact {b : Bindings} {e : Expr} {v : Number} (he : e.Integral b)
    (hv : e.eval b = .ok v) :
    (∃ n : Int64, v = .int n ∧ e.integer? b = some n.toInt) ∧
    (∀ s : Expr, s.Within e →
      ∃ n : Int64, s.eval b = .ok (.int n) ∧ s.integer? b = some n.toInt) ∧
    (∀ (op : BinaryOp) (l r : Expr) (m n : Int64), (Expr.binary op l r).Within e →
      l.eval b = .ok (.int m) → r.eval b = .ok (.int n) → op.StepsExact m n) ∧
    ∀ x y q r : Int, BinaryOp.floorDiv.result? x y = some q → BinaryOp.mod.result? x y = some r →
      x = q * y + r ∧ (0 ≤ r ∧ r < y ∨ y < r ∧ r ≤ 0) := by
  refine ⟨he.exactly v hv, fun s hs => ?_, fun op l r m n hs hl hr => ?_,
    fun x y q r => result?_floorDiv_mod⟩
  · obtain ⟨u, hu⟩ := hs.exists_eval v hv
    obtain ⟨n, rfl, hn⟩ := (hs.integral he).exactly u hu
    exact ⟨n, hu, hn⟩
  · obtain ⟨u, hu⟩ := hs.exists_eval v hv
    obtain ⟨l', r', hl', hr', happly⟩ := Expr.eval_binary_eq_ok hu
    cases hl.symm.trans hl'
    cases hr.symm.trans hr'
    exact BinaryOp.stepsExact_of_apply happly

/-- The expression `max(-7 // 2, -7 mod 3, -abs(X) ** 2)`. -/
def greatestOfThree : Expr :=
  .call .max
    [.binary .floorDiv (.num (.int (-7))) (.num (.int 2)),
      .binary .mod (.num (.int (-7))) (.num (.int 3)),
      .neg (.binary .pow (.call .abs [.var "X"]) (.num (.int 2)))]

/-- If `X` is minus three, its parts have the values `-4`, `2` and `-9`. For the first two, quotient
and remainder of the machine are corrected. -/
theorem integer_expressions_exact_greatestOfThree :
    ∃ b : Bindings, b.get? "X" = some (.num (.int (-3))) ∧ greatestOfThree.Integral b ∧
      greatestOfThree.eval b = .ok (.int 2) ∧ greatestOfThree.integer? b = some 2 ∧
      BinaryOp.floorDiv.StepsExact (-7) 2 := by
  have hX : (Bindings.empty.extend "X" (.num (.int (-3)))).resolve (.var "X") =
      .num (.int (-3)) := rfl
  have hpower : (Expr.binary .pow (.call .abs [.var "X"]) (.num (.int 2))).Integral
      (Bindings.empty.extend "X" (.num (.int (-3)))) := by
    refine .binary (by decide) (.call (.inl rfl) ?_) (.num 2) fun _ n hn => ?_
    · exact List.forall_mem_singleton.2 (.var hX)
    · cases hn
      decide
  have he : greatestOfThree.Integral (Bindings.empty.extend "X" (.num (.int (-3)))) := by
    refine .call (.inr (.inl rfl)) ?_
    rw [List.forall_mem_cons, List.forall_mem_cons, List.forall_mem_singleton]
    exact ⟨.binary (by decide) (.num _) (.num _) (fun h => by cases h),
      .binary (by decide) (.num _) (.num _) (fun h => by cases h), .neg hpower⟩
  have hv : greatestOfThree.eval (Bindings.empty.extend "X" (.num (.int (-3)))) =
      .ok (.int 2) := rfl
  obtain ⟨⟨n, hn, hvalue⟩, -, hsteps, -⟩ := integer_expressions_exact he hv
  refine ⟨_, rfl, he, hv, ?_, ?_⟩
  · cases hn
    exact hvalue
  · exact hsteps _ _ _ _ _ (.argument List.mem_cons_self (.self _)) rfl rfl

end StackLogic.Horn
