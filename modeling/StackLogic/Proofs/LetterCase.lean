import StackLogic.Machine.Number
import StackLogic.Machine.Token
import StackLogic.Text.Upper
import Mathlib.Data.List.Basic
import Mathlib.Data.List.TakeWhile

/-!
# Texts that differ in letter case only

Two texts have the same letters if small letters of ASCII in the place of capital ones make them
equal (`Text.SameLetters`). They have the same upper case (`Text.SameLetters.upper_eq`), they are
read as the same number, if any (`Text.SameLetters.ofLiteral?_eq`), and both have quotes around them
or neither has (`Text.SameLetters.isQuoted_eq`).

Upper case and the readers of numbers do not tell a text from its lower case, as only the code
points of capital letters change (`Text.toLower_cases`).
-/

namespace StackLogic.Text

/-- The text with small letters in the place of the capital letters of ASCII. -/
def lower (cs : List Char) : List Char := cs.map Char.toLower

/-- The texts are equal but for the case of ASCII letters. -/
def SameLetters (s t : String) : Prop := lower s.toList = lower t.toList

instance (s t : String) : Decidable (SameLetters s t) :=
  inferInstanceAs (Decidable (lower s.toList = lower t.toList))

variable {c x : Char} {cs : List Char} {s t : String}

/-! ## Characters -/

/-- Lower case leaves a character alone, or the character is a capital letter and its code point
grows by 32. -/
theorem toLower_cases (c : Char) :
    c.toLower = c ∨ 0x41 ≤ c.toNat ∧ c.toNat ≤ 0x5A ∧ c.toLower.toNat = c.toNat + 32 := by
  unfold Char.toLower
  split
  case isTrue h =>
    have hbounds : 0x41 ≤ c.toNat ∧ c.toNat ≤ 0x5A := by
      simpa [UInt32.le_iff_toNat_le] using h
    refine Or.inr ⟨hbounds.1, hbounds.2, ?_⟩
    have hle : c.val.toNat ≤ 0x5A := hbounds.2
    show (c.val + 32).toNat = c.val.toNat + 32
    rw [UInt32.toNat_add]
    exact Nat.mod_eq_of_lt (by simp; omega)
  case isFalse => exact Or.inl rfl

/-- Lower case does not change the upper case. -/
theorem upperChar_toLower (c : Char) : upperChar c.toLower = upperChar c := by
  rcases toLower_cases c with hself | ⟨hle, hc, hlower⟩
  · rw [hself]
  · have hletters : ∀ n ∈ List.range' 0x41 26,
        (Char.ofNat n).toLower.toUpper = (Char.ofNat n).toUpper := by decide
    have hletter := hletters c.toNat (List.mem_range'_1.2 (by omega))
    rw [Char.ofNat_toNat] at hletter
    unfold upperChar
    rw [if_pos (by omega), if_pos (by omega), hletter]

/-- A letter in lower case stays as it is. -/
theorem toLower_toLower (c : Char) : c.toLower.toLower = c.toLower := by
  rcases toLower_cases c with hself | ⟨hle, -, hlower⟩
  · rw [hself, hself]
  · rcases toLower_cases c.toLower with hsame | ⟨-, hc, -⟩
    · exact hsame
    · omega

theorem toLower_of_isDigit (h : c.isDigit = true) : c.toLower = c := by
  rcases toLower_cases c with hself | ⟨hc, -⟩
  · exact hself
  · have hdigit : c.toNat ≤ 0x39 := (Char.isDigit_iff_toNat.1 h).2
    omega

theorem isDigit_toLower (c : Char) : c.toLower.isDigit = c.isDigit := by
  rcases toLower_cases c with hself | ⟨hc, -, hlower⟩
  · rw [hself]
  · rw [Bool.eq_iff_iff, Char.isDigit_iff_toNat, Char.isDigit_iff_toNat, hlower]
    show 0x30 ≤ c.toNat + 32 ∧ c.toNat + 32 ≤ 0x39 ↔ 0x30 ≤ c.toNat ∧ c.toNat ≤ 0x39
    omega

/-- A character below the letters is the lower case of itself only. -/
theorem toLower_eq_iff (hx : x.toNat < 0x41) : c.toLower = x ↔ c = x := by
  rcases toLower_cases c with hself | ⟨hc, -, hlower⟩
  · rw [hself]
  · constructor
    · rintro rfl
      omega
    · rintro rfl
      omega

theorem toLower_exponentLetter (c : Char) :
    (c.toLower = 'e' ∨ c.toLower = 'E') ↔ (c = 'e' ∨ c = 'E') := by
  rcases toLower_cases c with hself | ⟨hc, hle, hlower⟩
  · rw [hself]
  · have hsmall : 'e'.toNat = 0x65 := rfl
    have hcapital : 'E'.toNat = 0x45 := rfl
    simp only [← Char.toNat_inj, hlower, hsmall, hcapital]
    omega

theorem mem_lower_iff (hx : x.toNat < 0x41) : x ∈ lower cs ↔ x ∈ cs := by
  unfold lower
  rw [List.mem_map]
  constructor
  · rintro ⟨c, hc, hlower⟩
    rwa [← (toLower_eq_iff hx).1 hlower]
  · exact fun h => ⟨x, h, (toLower_eq_iff hx).2 rfl⟩

/-- Text without letters is told from its lower case. -/
theorem lower_eq_iff {us : List Char} (hus : ∀ x ∈ us, x.toNat < 0x41) :
    lower cs = us ↔ cs = us := by
  unfold lower
  induction us generalizing cs with
  | nil => exact List.map_eq_nil_iff
  | cons x rest ih =>
    obtain ⟨hx, hrest⟩ := List.forall_mem_cons.1 hus
    cases cs with
    | nil => exact iff_of_false nofun nofun
    | cons c more =>
      rw [List.map_cons, List.cons.injEq, List.cons.injEq, toLower_eq_iff hx, ih hrest]

theorem lower_eq_self (h : ∀ c ∈ cs, c.isDigit = true) : lower cs = cs := by
  have hself : ∀ c ∈ cs, c.toLower = id c := fun c hc => toLower_of_isDigit (h c hc)
  rw [lower, List.map_congr_left hself, List.map_id]

end StackLogic.Text

namespace StackLogic.Decimal

open Text

variable {c : Char} {cs rest : List Char}

/-! ## Numbers -/

theorem natural?_lower (cs : List Char) : natural? (lower cs) = natural? cs := by
  have hempty : (lower cs).isEmpty = cs.isEmpty := List.isEmpty_map
  have hall : (lower cs).all Char.isDigit = cs.all Char.isDigit := by
    rw [lower, List.all_map]
    exact congrArg cs.all (funext isDigit_toLower)
  unfold natural?
  rw [hempty, hall]
  split
  next h =>
    rw [Bool.and_eq_true, List.all_eq_true] at h
    rw [lower_eq_self h.2]
  next => rfl

theorem splitSign_cons (c : Char) (rest : List Char) :
    splitSign (c :: rest) =
      if c = '-' then (true, rest) else if c = '+' then (false, rest) else (false, c :: rest) := by
  unfold splitSign
  split
  next heq =>
    obtain ⟨rfl, rfl⟩ := List.cons.inj heq
    rfl
  next heq =>
    obtain ⟨rfl, rfl⟩ := List.cons.inj heq
    rfl
  next hminus hplus =>
    rw [if_neg fun h => hminus rest (by rw [h]), if_neg fun h => hplus rest (by rw [h])]

theorem splitSign_lower (cs : List Char) :
    splitSign (lower cs) = ((splitSign cs).1, lower (splitSign cs).2) := by
  cases cs with
  | nil => rfl
  | cons c rest =>
    have hcons : lower (c :: rest) = c.toLower :: lower rest := rfl
    have hminus : c.toLower = '-' ↔ c = '-' := toLower_eq_iff (by decide)
    have hplus : c.toLower = '+' ↔ c = '+' := toLower_eq_iff (by decide)
    rw [hcons, splitSign_cons, splitSign_cons]
    simp only [hminus, hplus]
    split
    · rfl
    · split
      · rfl
      · rfl

/-- Integers are read alike in both cases. -/
theorem integer?_lower (cs : List Char) : integer? (lower cs) = integer? cs := by
  unfold integer?
  rw [splitSign_lower]
  dsimp only
  rw [natural?_lower]

theorem word?_lower (cs : List Char) : word? (lower cs) = word? cs := by
  rw [word?, integer?_lower, word?]

/-- The letter of an exponent may have either case. -/
theorem exponent?_lower (cs : List Char) : exponent? (lower cs) = exponent? cs := by
  cases cs with
  | nil => rfl
  | cons c rest =>
    have hcons : lower (c :: rest) = c.toLower :: lower rest := rfl
    rw [hcons, exponent?, exponent?, integer?_lower]
    simp only [toLower_exponentLetter]

theorem takeWhile_lower (cs : List Char) :
    (lower cs).takeWhile Char.isDigit = cs.takeWhile Char.isDigit ∧
      (lower cs).dropWhile Char.isDigit = lower (cs.dropWhile Char.isDigit) := by
  have hdigit : Char.isDigit ∘ Char.toLower = Char.isDigit := funext isDigit_toLower
  have hself : lower (cs.takeWhile Char.isDigit) = cs.takeWhile Char.isDigit :=
    lower_eq_self fun c hc => List.mem_takeWhile_imp hc
  unfold lower at hself ⊢
  rw [List.takeWhile_map, List.dropWhile_map, hdigit]
  exact ⟨hself, rfl⟩

/-- The digits behind a point, and what follows them. -/
def places (behind : List Char) : List Char × List Char :=
  match behind with
  | '.' :: rest => (rest.takeWhile Char.isDigit, rest.dropWhile Char.isDigit)
  | _ => ([], behind)

theorem places_cons (c : Char) (rest : List Char) :
    places (c :: rest) =
      if c = '.' then (rest.takeWhile Char.isDigit, rest.dropWhile Char.isDigit)
      else ([], c :: rest) := by
  unfold places
  split
  next heq =>
    obtain ⟨rfl, rfl⟩ := List.cons.inj heq
    rfl
  next hpoint => rw [if_neg fun h => hpoint rest (by rw [h])]

theorem places_lower (cs : List Char) :
    places (lower cs) = ((places cs).1, lower (places cs).2) := by
  cases cs with
  | nil => rfl
  | cons c rest =>
    have hcons : lower (c :: rest) = c.toLower :: lower rest := rfl
    have hpoint : c.toLower = '.' ↔ c = '.' := toLower_eq_iff (by decide)
    obtain ⟨htake, hdrop⟩ := takeWhile_lower rest
    rw [hcons, places_cons, places_cons]
    simp only [hpoint]
    split
    · rw [htake, hdrop]
    · rfl

theorem magnitude?_eq (cs : List Char) :
    magnitude? cs =
      if (cs.takeWhile Char.isDigit ++ (places (cs.dropWhile Char.isDigit)).1).isEmpty then none
      else (exponent? (places (cs.dropWhile Char.isDigit)).2).map fun e =>
        nearest (ofDigits (cs.takeWhile Char.isDigit ++ (places (cs.dropWhile Char.isDigit)).1))
          (cs.takeWhile Char.isDigit ++ (places (cs.dropWhile Char.isDigit)).1).length
          (e - (places (cs.dropWhile Char.isDigit)).1.length) := rfl

theorem magnitude?_lower (cs : List Char) : magnitude? (lower cs) = magnitude? cs := by
  obtain ⟨htake, hdrop⟩ := takeWhile_lower cs
  rw [magnitude?_eq, magnitude?_eq, htake, hdrop, places_lower]
  dsimp only
  rw [exponent?_lower]

theorem special?_lower (cs : List Char) : special? (lower cs) = special? cs := by
  have htwice : (lower cs).map Char.toLower = cs.map Char.toLower := by
    rw [lower, List.map_map]
    exact List.map_congr_left fun c _ => Text.toLower_toLower c
  unfold special?
  rw [htwice]

/-- Floats are read alike in both cases, infinities included. -/
theorem float?_lower (cs : List Char) : float? (lower cs) = float? cs := by
  unfold float?
  rw [splitSign_lower]
  dsimp only
  rw [magnitude?_lower, special?_lower]

end StackLogic.Decimal

namespace StackLogic.Text.SameLetters

open Machine

variable {s t : String}

/-! ## Texts -/

/-- Texts with the same letters have the same upper case. -/
theorem upper_eq (h : SameLetters s t) : upper s = upper t := by
  have hlower : ∀ cs, (lower cs).flatMap upperChar = cs.flatMap upperChar := by
    intro cs
    rw [lower, List.flatMap_map]
    exact List.flatMap_congr fun c _ => upperChar_toLower c
  rw [upper, upper, ← hlower s.toList, h, hlower]

/-- A text without letters has the same letters as itself only. -/
theorem eq_iff {u : String} (h : SameLetters s t) (hu : ∀ x ∈ u.toList, x.toNat < 0x41) :
    s = u ↔ t = u := by
  rw [← @String.toList_inj s u, ← @String.toList_inj t u, ← lower_eq_iff hu, h, lower_eq_iff hu]

/-- Texts with the same letters are read as the same number. -/
theorem ofLiteral?_eq (h : SameLetters s t) : Value.ofLiteral? s = Value.ofLiteral? t := by
  have hlower : ∀ s : String, Value.ofLiteral? s =
      if '.' ∈ lower s.toList then (Decimal.float? (lower s.toList)).map .float
      else (Decimal.word? (lower s.toList)).map .int := by
    intro s
    have hpoint : '.' ∈ lower s.toList ↔ '.' ∈ s.toList := mem_lower_iff (by decide)
    simp only [Value.ofLiteral?, hpoint, Decimal.float?_lower, Decimal.word?_lower]
  rw [hlower, hlower, h]

/-- Texts with the same letters both have quotes or both have none. -/
theorem isQuoted_eq (h : SameLetters s t) : Token.isQuoted s = Token.isQuoted t := by
  have hquote : ∀ o : Option Char,
      (o.map Char.toLower == some Token.quote) = (o == some Token.quote) := by
    intro o
    cases o with
    | none => rfl
    | some c =>
      have hc : c.toLower = Token.quote ↔ c = Token.quote := toLower_eq_iff (by decide)
      simp [hc]
  have hlower : ∀ s : String, Token.isQuoted s =
      (decide (2 ≤ (lower s.toList).length) && (lower s.toList).head? == some Token.quote &&
        (lower s.toList).getLast? == some Token.quote) := by
    intro s
    rw [Token.isQuoted, lower, List.length_map, List.head?_map, List.getLast?_map, hquote, hquote,
      String.length_toList]
  rw [hlower, hlower, h]

end StackLogic.Text.SameLetters
