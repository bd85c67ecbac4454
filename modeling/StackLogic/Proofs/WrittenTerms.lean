import StackLogic.Proofs.ClearTerms

/-!
# Terms as they are written

Reading a compound term loses its structure: it becomes the atom that is named by its text. A `Tree`
is a term before that, with all the compound terms inside of it. `Writes` relates lexemes to trees,
and a head is spelled just in the ways in which trees for its arguments are written
(`spellsHead_iff`).

The term alone does not tell what was written: `g('a, b')` and `g(a, b)` are read as the same atom. A
tree is clear if this happens at no depth (`Tree.isClear`). Clear trees that are read as the same term
are the same (`Tree.term_injective`).
-/

namespace StackLogic.Horn

open Source

/-- A term as it is written. -/
inductive Tree where
  | var (name : String)
  | atom (name : String)
  | num (n : Number)
  | str (s : String)
  | list (items : List Tree)
  | compound (name : String) (args : List Tree)

namespace Tree

mutual

/-- The term that is read. -/
def term : Tree → Term
  | var name => .var name
  | atom name => .atom name
  | num n => .num n
  | str s => .str s
  | list items => .list (termAll items)
  | compound name args => .atom (Term.displayHead name (termAll args))

/-- The terms that are read. -/
def termAll : List Tree → List Term
  | [] => []
  | t :: rest => t.term :: termAll rest

end

mutual

/-- The text of the tree tells which tree it is: the text of each term in it tells which term it is,
and no atom ends like a compound term. -/
def isClear : Tree → Bool
  | var name => Lexeme.isVariableName name.toList
  | atom name => (Term.atom name).isClear && name.toList.getLast? != some ')'
  | num n => (Term.num n).isClear
  | str s => (Term.str s).isClear
  | list items => isClearAll items && (Term.list (termAll items)).isClear
  | compound name args =>
    !args.isEmpty && isClearAll args && (Term.atom (Term.displayHead name (termAll args))).isClear

/-- All of the trees are clear. -/
def isClearAll : List Tree → Bool
  | [] => true
  | t :: rest => t.isClear && isClearAll rest

end

/-- Induction over trees, with the hypothesis for all trees inside at once. -/
@[elab_as_elim, induction_eliminator]
theorem induct {motive : Tree → Prop} (var : ∀ name, motive (.var name))
    (atom : ∀ name, motive (.atom name)) (num : ∀ n, motive (.num n)) (str : ∀ s, motive (.str s))
    (list : ∀ items, (∀ t ∈ items, motive t) → motive (.list items))
    (compound : ∀ name args, (∀ t ∈ args, motive t) → motive (.compound name args)) (t : Tree) :
    motive t :=
  match t with
  | .var name => var name
  | .atom name => atom name
  | .num n => num n
  | .str s => str s
  | .list items => list items fun u _ => induct var atom num str list compound u
  | .compound name args =>
    compound name args fun u _ => induct var atom num str list compound u

variable {t u : Tree} {xs ys : List Tree} {name : String}

theorem termAll_eq_map (ts : List Tree) : termAll ts = ts.map term := by
  induction ts with
  | nil => rfl
  | cons t rest ih => rw [termAll, ih, List.map_cons]

theorem isClearAll_iff : isClearAll xs = true ↔ ∀ t ∈ xs, t.isClear = true := by
  induction xs with
  | nil => simp [isClearAll]
  | cons t rest ih => simp [isClearAll, ih]

/-! ## Clear trees -/

/-- A clear tree is read as a clear term. -/
theorem isClear_term (h : t.isClear = true) : t.term.isClear = true := by
  cases t with
  | var name => rfl
  | atom name =>
    rw [isClear, Bool.and_eq_true] at h
    exact h.1
  | num n => exact h
  | str s => exact h
  | list items =>
    rw [isClear, Bool.and_eq_true] at h
    exact h.2
  | compound name args =>
    rw [isClear, Bool.and_eq_true] at h
    exact h.2

/-- The variables of a clear tree have names that a text can give. -/
theorem written_term (h : t.isClear = true) : t.term.Written := by
  induction t with
  | var name =>
    intro x hx
    obtain rfl := Term.mem_variableNames_var.1 hx
    exact h
  | atom | num | str | compound =>
    intro x hx
    cases hx
  | list items ih =>
    rw [isClear, Bool.and_eq_true, isClearAll_iff] at h
    intro x hx
    rw [term, termAll_eq_map] at hx
    obtain ⟨u, hu, hxu⟩ := Term.mem_variableNames_list.1 hx
    obtain ⟨item, hitem, rfl⟩ := List.mem_map.1 hu
    exact ih item hitem (h.1 item hitem) x hxu

/-- The text of a compound term ends with a parenthesis. -/
theorem getLast?_displayHead {args : List Term} (h : args ≠ []) :
    (Term.displayHead name args).toList.getLast? = some ')' := by
  rw [toList_displayHead h, ← List.cons_append, ← List.append_assoc]
  exact List.getLast?_concat

/-- Trees that are read as the same terms are the same, if this is so of each of them. -/
theorem eq_of_map_term (hinj : ∀ x ∈ xs, ∀ y ∈ ys, x.term = y.term → x = y)
    (h : xs.map term = ys.map term) : xs = ys := by
  induction xs generalizing ys with
  | nil => exact (List.map_eq_nil_iff.1 h.symm).symm
  | cons x rest ih =>
    obtain ⟨y, rest', rfl, hy, hrest⟩ := List.map_eq_cons_iff.1 h.symm
    have hfirst : x = y := hinj x List.mem_cons_self y List.mem_cons_self hy.symm
    have hothers : rest = rest' := ih (fun x hx y hy =>
      hinj x (List.mem_cons_of_mem _ hx) y (List.mem_cons_of_mem _ hy)) hrest.symm
    rw [hfirst, hothers]

theorem ne_nil_of_isClear (h : (compound name xs).isClear = true) :
    xs ≠ [] ∧ ∀ x ∈ xs, x.isClear = true := by
  rw [isClear, Bool.and_eq_true, Bool.and_eq_true, isClearAll_iff] at h
  exact ⟨by simpa using h.1.1, h.1.2⟩

/-- The name and the arguments of a compound term with clear arguments are told by its text. -/
theorem eq_of_displayHead {f g : String} (hxs : xs ≠ []) (hys : ys ≠ [])
    (hclear : ∀ x ∈ xs, x.isClear = true) (hclear' : ∀ y ∈ ys, y.isClear = true)
    (hinj : ∀ x ∈ xs, ∀ y ∈ ys, x.term = y.term → x = y)
    (h : Term.displayHead f (xs.map term) = Term.displayHead g (ys.map term)) :
    f = g ∧ xs = ys := by
  have hne : xs.map term ≠ [] := by simpa using hxs
  have hne' : ys.map term ≠ [] := by simpa using hys
  obtain ⟨hname, hargs⟩ := displayHead_injective hne hne'
    (List.forall_mem_map.2 fun x hx => isClear_term (hclear x hx))
    (List.forall_mem_map.2 fun y hy => isClear_term (hclear' y hy))
    (List.forall_mem_map.2 fun x hx => written_term (hclear x hx))
    (List.forall_mem_map.2 fun y hy => written_term (hclear' y hy)) h
  exact ⟨hname, eq_of_map_term hinj hargs⟩

/-- A clear atom is not the text of a compound term. -/
theorem atom_ne_displayHead {f : String} (h : (atom name).isClear = true) {args : List Term}
    (hargs : args ≠ []) : name ≠ Term.displayHead f args := by
  rintro rfl
  rw [isClear, getLast?_displayHead hargs, bne_self_eq_false, Bool.and_false] at h
  cases h

/-- Clear trees that are read as the same term are the same. -/
theorem term_injective (ht : t.isClear = true) (hu : u.isClear = true) (h : t.term = u.term) :
    t = u := by
  induction t generalizing u with
  | var x =>
    cases u with
    | var y => exact congrArg var (Term.var.inj h)
    | _ => cases h
  | atom a =>
    cases u with
    | atom c => exact congrArg atom (Term.atom.inj h)
    | compound g ys =>
      have hys := (ne_nil_of_isClear hu).1
      have hname : a = Term.displayHead g (termAll ys) := Term.atom.inj h
      exact absurd hname (atom_ne_displayHead ht (by rw [termAll_eq_map]; simpa using hys))
    | _ => cases h
  | num m =>
    cases u with
    | num n => exact congrArg num (Term.num.inj h)
    | _ => cases h
  | str r =>
    cases u with
    | str s => exact congrArg str (Term.str.inj h)
    | _ => cases h
  | list xs ih =>
    cases u with
    | list ys =>
      rw [isClear, Bool.and_eq_true, isClearAll_iff] at ht hu
      have hitems : termAll xs = termAll ys := Term.list.inj h
      rw [termAll_eq_map, termAll_eq_map] at hitems
      exact congrArg list (eq_of_map_term
        (fun x hx y hy => ih x hx (ht.1 x hx) (hu.1 y hy)) hitems)
    | _ => cases h
  | compound f xs ih =>
    obtain ⟨hxs, hxclear⟩ := ne_nil_of_isClear ht
    cases u with
    | atom c =>
      have hname : Term.displayHead f (termAll xs) = c := Term.atom.inj h
      exact absurd hname.symm (atom_ne_displayHead hu (by rw [termAll_eq_map]; simpa using hxs))
    | compound g ys =>
      obtain ⟨hys, hyclear⟩ := ne_nil_of_isClear hu
      have hheads : Term.displayHead f (termAll xs) = Term.displayHead g (termAll ys) :=
        Term.atom.inj h
      rw [termAll_eq_map, termAll_eq_map] at hheads
      obtain ⟨rfl, rfl⟩ := eq_of_displayHead hxs hys hxclear hyclear
        (fun x hx y hy => ih x hx (hxclear x hx) (hyclear y hy)) hheads
      rfl
    | _ => cases h

/-- The quoted comma of `g('a, b')` is lost, so this tree is not clear, although the atom `g(a, b)`
that is read is clear. -/
example : (compound "g" [atom "a, b"]).isClear = false ∧
    (compound "g" [atom "a", atom "b"]).isClear = true ∧
    Term.displayHead "g" (termAll [atom "a, b"]) =
      Term.displayHead "g" (termAll [atom "a", atom "b"]) := by decide

end Tree

/-! ## Trees and lexemes -/

variable {ls : List Lexeme} {t : Tree} {name text : String} {xs : List Tree} {as : List Term}

/-- The lexemes write the tree. -/
inductive Writes : List Lexeme → Tree → Prop where
  | var (name : String) : Writes [.variableName name] (.var name)
  | int (n : Int64) : Writes [.int n] (.num (.int n))
  | negInt (n : Int64) : Writes [.symbol "-", .int n] (.num (.int (-n)))
  | float (x : Float) : Writes [.float x] (.num (.float x))
  | negFloat (x : Float) : Writes [.symbol "-", .float x] (.num (.float (-x)))
  | str (s : String) : Writes [.str s] (.str s)
  | bang : Writes [.bang] (.atom "!")
  | symbol (s : String) : Writes [.symbol s] (.atom s)
  | atom (name : String) : Writes [.atom name] (.atom name)
  | list {parts : List (List Lexeme × Tree)} (h : ∀ part ∈ parts, Writes part.1 part.2) :
      Writes (.openBracket :: (commaSeparated (parts.map Prod.fst) ++ [.closeBracket]))
        (.list (parts.map Prod.snd))
  | compound {name : String} {parts : List (List Lexeme × Tree)} (hne : parts ≠ [])
      (h : ∀ part ∈ parts, Writes part.1 part.2) :
      Writes (.atom name :: .openParen :: (commaSeparated (parts.map Prod.fst) ++ [.closeParen]))
        (.compound name (parts.map Prod.snd))

/-- The lexemes write the head of a clause with these arguments. -/
inductive WritesHead : List Lexeme → String → List Tree → Prop where
  | atom (name : String) : WritesHead [.atom name] name []
  | compound {name : String} {parts : List (List Lexeme × Tree)} (hne : parts ≠ [])
      (h : ∀ part ∈ parts, Writes part.1 part.2) :
      WritesHead
        (.atom name :: .openParen :: (commaSeparated (parts.map Prod.fst) ++ [.closeParen])) name
        (parts.map Prod.snd)

/-- The parts with the terms that are read in the place of the trees. -/
def readParts (parts : List (List Lexeme × Tree)) : List (List Lexeme × Term) :=
  parts.map fun part => (part.1, part.2.term)

theorem fst_readParts (parts : List (List Lexeme × Tree)) :
    (readParts parts).map Prod.fst = parts.map Prod.fst := by
  rw [readParts, List.map_map]
  rfl

theorem snd_readParts (parts : List (List Lexeme × Tree)) :
    (readParts parts).map Prod.snd = Tree.termAll (parts.map Prod.snd) := by
  rw [readParts, Tree.termAll_eq_map, List.map_map, List.map_map]
  rfl

theorem spells_readParts {parts : List (List Lexeme × Tree)}
    (h : ∀ part ∈ parts, Spells part.1 part.2.term) :
    ∀ part ∈ readParts parts, Spells part.1 part.2 := by
  intro part hpart
  obtain ⟨tree, htree, rfl⟩ := List.mem_map.1 hpart
  exact h tree htree

/-- What is written spells the term that is read. -/
theorem Writes.spells (h : Writes ls t) : Spells ls t.term := by
  induction h with
  | var name => exact .var name
  | int n => exact .int n
  | negInt n => exact .negInt n
  | float x => exact .float x
  | negFloat x => exact .negFloat x
  | str s => exact .str s
  | bang => exact .bang
  | symbol s => exact .symbol s
  | atom name => exact .atom name
  | @list parts _ ih =>
    have hlist := Spells.list (spells_readParts ih)
    rwa [fst_readParts, snd_readParts] at hlist
  | @compound name parts hne _ ih =>
    have hread : readParts parts ≠ [] := by simpa [readParts] using hne
    have hcompound : Spells _ (.atom (Term.displayHead name _)) :=
      .compound hread (spells_readParts ih)
    rwa [fst_readParts, snd_readParts] at hcompound

/-- Trees for all parts, if there is one for each of them. -/
theorem exists_readParts_eq {parts : List (List Lexeme × Term)}
    (h : ∀ part ∈ parts, ∃ t, Writes part.1 t ∧ t.term = part.2) :
    ∃ trees, readParts trees = parts ∧ ∀ part ∈ trees, Writes part.1 part.2 := by
  induction parts with
  | nil => exact ⟨[], rfl, List.forall_mem_nil _⟩
  | cons part rest ih =>
    obtain ⟨hpart, hrest⟩ := List.forall_mem_cons.1 h
    obtain ⟨t, ht, hterm⟩ := hpart
    obtain ⟨trees, rfl, htrees⟩ := ih hrest
    refine ⟨(part.1, t) :: trees, ?_, List.forall_mem_cons.2 ⟨ht, htrees⟩⟩
    rw [readParts, List.map_cons, hterm]
    rfl

/-- A spelling of a term writes a tree that is read as the term. -/
theorem Spells.exists_writes {t : Term} (h : Spells ls t) :
    ∃ tree, Writes ls tree ∧ tree.term = t := by
  induction h with
  | var name => exact ⟨_, .var name, rfl⟩
  | int n => exact ⟨_, .int n, rfl⟩
  | negInt n => exact ⟨_, .negInt n, rfl⟩
  | float x => exact ⟨_, .float x, rfl⟩
  | negFloat x => exact ⟨_, .negFloat x, rfl⟩
  | str s => exact ⟨_, .str s, rfl⟩
  | bang => exact ⟨_, .bang, rfl⟩
  | symbol s => exact ⟨_, .symbol s, rfl⟩
  | atom name => exact ⟨_, .atom name, rfl⟩
  | list _ ih =>
    obtain ⟨trees, rfl, htrees⟩ := exists_readParts_eq ih
    rw [fst_readParts, snd_readParts]
    exact ⟨_, .list htrees, rfl⟩
  | compound hne _ ih =>
    obtain ⟨trees, rfl, htrees⟩ := exists_readParts_eq ih
    rw [fst_readParts, snd_readParts]
    exact ⟨_, .compound (by simpa [readParts] using hne) htrees, rfl⟩

/-- The heads that are spelled are those that are written, with trees that are read as the
arguments. -/
theorem spellsHead_iff :
    SpellsHead ls name as ↔ ∃ xs, WritesHead ls name xs ∧ xs.map Tree.term = as := by
  constructor
  · intro h
    cases h with
    | atom => exact ⟨[], .atom name, rfl⟩
    | compound hne hparts =>
      obtain ⟨trees, rfl, htrees⟩ := exists_readParts_eq fun part hpart =>
        (hparts part hpart).exists_writes
      rw [fst_readParts, snd_readParts, Tree.termAll_eq_map]
      exact ⟨_, .compound (by simpa [readParts] using hne) htrees, rfl⟩
  · rintro ⟨xs, hwrites, rfl⟩
    cases hwrites with
    | atom => exact .atom name
    | @compound _ parts hne hparts =>
      have hread : readParts parts ≠ [] := by simpa [readParts] using hne
      have hcompound : SpellsHead _ name _ :=
        .compound hread (spells_readParts fun part hpart => (hparts part hpart).spells)
      rwa [fst_readParts, snd_readParts, Tree.termAll_eq_map] at hcompound

namespace Grammar

/-- The text writes the head of a clause with these arguments, with or without a final point. -/
def WrittenHead (text name : String) (args : List Tree) : Prop :=
  ∃ ls tail, Lexes true text.toList (ls ++ tail) ∧ WritesHead ls name args ∧ IsEnd tail

/-- The head of a clause that is read is a head that is written. -/
theorem clauseHead_eq_ok_iff_writtenHead :
    clauseHead text = .ok (name, as) ↔
      ∃ xs, WrittenHead text name xs ∧ xs.map Tree.term = as := by
  rw [clauseHead_eq_ok_iff]
  constructor
  · rintro ⟨ls, tail, hlexes, hspells, htail⟩
    obtain ⟨xs, hwrites, hterms⟩ := spellsHead_iff.1 hspells
    exact ⟨xs, ⟨ls, tail, hlexes, hwrites, htail⟩, hterms⟩
  · rintro ⟨xs, ⟨ls, tail, hlexes, hwrites, htail⟩, hterms⟩
    exact ⟨ls, tail, hlexes, spellsHead_iff.2 ⟨xs, hwrites, hterms⟩, htail⟩

end Grammar

end StackLogic.Horn
