/-!
# Blank characters and trimming

Both languages separate words by *blank* characters: the code points with the Unicode property
`White_Space`. Lines are compared, classified and stored after blanks at their ends are removed.
All functions here work on lists of characters, so that facts about them are facts about lists.
-/

namespace StackLogic.Text

/-- The code points with the property `White_Space`, as closed intervals in increasing order. -/
def blankRanges : List (Nat × Nat) :=
  [(0x09, 0x0D), (0x20, 0x20), (0x85, 0x85), (0xA0, 0xA0), (0x1680, 0x1680), (0x2000, 0x200A),
    (0x2028, 0x2029), (0x202F, 0x202F), (0x205F, 0x205F), (0x3000, 0x3000)]

/-- A character is blank if its code point lies in one of the intervals of `blankRanges`. -/
def isBlank (c : Char) : Bool :=
  blankRanges.any fun range => range.1 ≤ c.toNat && c.toNat ≤ range.2

/-- Remove the blanks at the end. -/
def trimEnd (cs : List Char) : List Char :=
  (cs.reverse.dropWhile isBlank).reverse

/-- Remove the blanks at both ends. -/
def trim (cs : List Char) : List Char :=
  trimEnd (cs.dropWhile isBlank)

/-- Remove the blanks at both ends of a string. -/
def trimString (s : String) : String :=
  String.ofList (trim s.toList)

/-- A text is blank if it holds nothing but blanks. -/
def isBlankString (s : String) : Bool :=
  s.toList.all isBlank

/-- A text that does not end with a blank keeps its end. -/
theorem trimEnd_concat {cs : List Char} {c : Char} (h : isBlank c = false) :
    trimEnd (cs ++ [c]) = cs ++ [c] := by
  simp [trimEnd, h]

/-- A prefix with a property is what is taken, if the character behind it does not have the property. -/
theorem takeWhile_append_of_forall {p : Char → Bool} {text rest : List Char}
    (htext : ∀ x ∈ text, p x = true) (hrest : ∀ x ∈ rest.head?, p x = false) :
    (text ++ rest).takeWhile p = text ∧ (text ++ rest).dropWhile p = rest := by
  have hstop : rest.takeWhile p = [] ∧ rest.dropWhile p = rest := by
    cases rest with
    | nil => exact ⟨rfl, rfl⟩
    | cons x more =>
      have hx : p x = false := hrest x rfl
      simp [hx]
  rw [List.takeWhile_append_of_pos htext, List.dropWhile_append_of_pos htext, hstop.1, hstop.2,
    List.append_nil]
  exact ⟨rfl, rfl⟩

/-- Every text starts with a longest run of characters with a property. -/
theorem exists_span (p : Char → Bool) (cs : List Char) :
    ∃ text rest, cs = text ++ rest ∧ (∀ x ∈ text, p x = true) ∧ ∀ x ∈ rest.head?, p x = false := by
  refine ⟨cs.takeWhile p, cs.dropWhile p, List.takeWhile_append_dropWhile.symm,
    fun x hx => List.all_eq_true.1 List.all_takeWhile x hx, fun x hx => ?_⟩
  have hhead := List.head?_dropWhile_not p cs
  rw [Option.mem_def.1 hx] at hhead
  simpa using hhead

end StackLogic.Text
