/-!
# Tables

A table gives names their values. A name has one place in a table, and a new value is put where the
old one was.
-/

namespace StackLogic

/-- Names with their values, in the order in which the names were first given one. -/
abbrev Table (α : Type) := List (String × α)

namespace Table

variable {α : Type} {t : Table α} {name key : String} {a : α}

/-- Give a name a value. -/
def insert (name : String) (a : α) : Table α → Table α
  | [] => [(name, a)]
  | entry :: rest => if entry.1 = name then (name, a) :: rest else entry :: insert name a rest

theorem lookup_cons (key : String) (entry : String × α) (rest : Table α) :
    (entry :: rest).lookup key = if key = entry.1 then some entry.2 else rest.lookup key := by
  obtain ⟨first, value⟩ := entry
  by_cases h : key = first
  · simp [h]
  · have hbeq : (key == first) = false := beq_false_of_ne h
    simp [List.lookup_cons, hbeq, h]

/-- Only the name that is given a value changes its own. -/
theorem lookup_insert (t : Table α) (name key : String) (a : α) :
    (insert name a t).lookup key = if key = name then some a else t.lookup key := by
  induction t with
  | nil => exact lookup_cons key (name, a) []
  | cons entry rest ih =>
    rw [insert]
    split
    next hname =>
      rw [lookup_cons, lookup_cons, hname]
      split <;> rfl
    next hname =>
      rw [lookup_cons, lookup_cons, ih]
      split
      next hkey => rw [if_neg fun h => hname (hkey ▸ h)]
      next => rfl

theorem mem_of_mem_insert {entry : String × α} (h : entry ∈ insert name a t) :
    entry = (name, a) ∨ entry ∈ t := by
  induction t with
  | nil => exact .inl (List.mem_singleton.1 h)
  | cons first rest ih =>
    rw [insert] at h
    split at h
    · exact (List.mem_cons.1 h).imp_right (List.mem_cons_of_mem _)
    · rcases List.mem_cons.1 h with rfl | hrest
      · exact .inr List.mem_cons_self
      · exact (ih hrest).imp_right (List.mem_cons_of_mem _)

theorem lookup_eq_none_iff : t.lookup name = none ↔ name ∉ t.map (·.1) := by
  induction t with
  | nil => exact iff_of_true rfl List.not_mem_nil
  | cons entry rest ih =>
    rw [lookup_cons, List.map_cons, List.mem_cons, not_or]
    split
    next h => exact iff_of_false nofun fun hname => hname.1 h
    next h => exact ih.trans ⟨fun hrest => ⟨h, hrest⟩, And.right⟩

/-- A name that has a value has one place. -/
theorem exists_append_of_lookup (h : t.lookup name = some a) :
    ∃ before after, t = before ++ (name, a) :: after ∧ name ∉ before.map (·.1) := by
  obtain ⟨before, after, hsplit, hbefore⟩ := List.lookup_eq_some_iff.1 h
  refine ⟨before, after, hsplit, fun hmem => ?_⟩
  obtain ⟨entry, hentry, rfl⟩ := List.mem_map.1 hmem
  simpa using hbefore entry hentry

/-- Names that come before do not matter. -/
theorem lookup_append {before : Table α} (h : name ∉ before.map (·.1)) (after : Table α) :
    (before ++ after).lookup name = after.lookup name := by
  induction before with
  | nil => rfl
  | cons entry rest ih =>
    rw [List.map_cons, List.mem_cons, not_or] at h
    rw [List.cons_append, lookup_cons, if_neg h.1, ih h.2]

theorem insert_append {before : Table α} (h : name ∉ before.map (·.1)) (a : α) (after : Table α) :
    insert name a (before ++ after) = before ++ insert name a after := by
  induction before with
  | nil => rfl
  | cons entry rest ih =>
    rw [List.map_cons, List.mem_cons, not_or] at h
    rw [List.cons_append, insert, if_neg (Ne.symm h.1), ih h.2, List.cons_append]

theorem mem_of_lookup_eq_some (h : t.lookup key = some a) : (key, a) ∈ t := by
  obtain ⟨before, after, rfl, -⟩ := exists_append_of_lookup h
  exact List.mem_append_right _ List.mem_cons_self

end Table

end StackLogic
