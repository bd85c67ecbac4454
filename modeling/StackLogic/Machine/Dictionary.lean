import StackLogic.Machine.Primitive
import StackLogic.Machine.Token
import StackLogic.Table
import StackLogic.Text.Upper

/-!
# The dictionary

The dictionary gives a name its meaning: a primitive word, or the tokens between `:` and `;` of a
definition. At first it holds the primitive words. Names are compared in upper case, and a definition
takes the place of whatever the name meant before, a primitive word included.
-/

namespace StackLogic.Machine

/-- The meaning of a name. -/
inductive Meaning where
  /-- A primitive word. -/
  | primitive (p : Primitive)
  /-- A defined word with its body. -/
  | defined (body : List Token)
  deriving DecidableEq, Repr

/-- The body of a defined word. -/
def Meaning.body? : Meaning → Option (List Token)
  | primitive _ => none
  | defined body => some body

/-- The meanings of all names. -/
structure Dictionary where
  /-- The names in upper case with their meanings. -/
  words : Table Meaning := Primitive.all.map fun p => (p.name, .primitive p)
  deriving DecidableEq, Repr

namespace Dictionary

/-- Define a name. -/
def define (d : Dictionary) (name : String) (body : List Token) : Dictionary :=
  { words := d.words.insert (Text.upper name) (.defined body) }

/-- The meaning of a name. -/
def get? (d : Dictionary) (name : String) : Option Meaning :=
  d.words.lookup (Text.upper name)

/-- All names that have a meaning, in increasing order. -/
def names (d : Dictionary) : List String :=
  (d.words.map (·.1)).mergeSort (· ≤ ·)

/-- The defined words with their bodies, in increasing order of the names. -/
def definitions (d : Dictionary) : List (String × List Token) :=
  (d.words.filterMap fun (name, meaning) => meaning.body?.map (name, ·)).mergeSort (·.1 ≤ ·.1)

/-- At first only the primitive words have a meaning. -/
theorem get?_new (name : String) :
    get? {} name = (Primitive.ofName? (Text.upper name)).map .primitive := by
  unfold get? Primitive.ofName?
  generalize Text.upper name = key
  show (Primitive.all.map fun p => (p.name, Meaning.primitive p)).lookup key = _
  induction Primitive.all with
  | nil => rfl
  | cons p rest ih =>
    rw [List.map_cons, Table.lookup_cons, List.find?_cons]
    by_cases h : key = p.name
    · rw [if_pos h, beq_iff_eq.2 h.symm]
      rfl
    · rw [if_neg h, beq_false_of_ne (Ne.symm h)]
      exact ih

/-- Only the defined name changes its meaning. -/
theorem get?_define (d : Dictionary) (name key : String) (body : List Token) :
    (d.define name body).get? key =
      if Text.upper key = Text.upper name then some (.defined body) else d.get? key :=
  Table.lookup_insert d.words (Text.upper name) (Text.upper key) (.defined body)

end Dictionary

end StackLogic.Machine
