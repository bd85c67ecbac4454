import StackLogic.Machine.Token
import StackLogic.Text.Upper
import Mathlib.Data.List.Basic

/-!
# Laws of upper case

A text in upper case stays as it is when it is brought to upper case again (`upper_upper`), and upper
case makes no punctuation out of other characters: only `:` becomes `:`, only `;` becomes `;`, and
no text gets quotes around it (`isQuoted_of_upper`).

Both come from the table. Its images are collected as a list of code points, and so are the code
points that it changes; that the two lists have nothing in common is seen on their bit sets.
-/

namespace StackLogic.Text

/-! ## Code points of the table -/

/-- The members of a progression. -/
def UpperSpan.codes (span : UpperSpan) : List Nat :=
  List.range' span.first ((span.last - span.first) / span.step + 1) span.step

/-- The code points that may change. -/
def changedCodes : List Nat :=
  List.range' 0x61 26 ++ (upperSpans.flatMap UpperSpan.codes ++ upperExpansions.map (·.1))

/-- The code points that take the place of others. -/
def imageCodes : List Nat :=
  upperSpans.flatMap (fun span => span.codes.map fun n : Nat => (n + span.shift).toNat) ++
    upperExpansions.flatMap (·.2)

/-- A list of numbers as a bit set. -/
def bitSet (codes : List Nat) : Nat := codes.foldr (fun n set => 1 <<< n ||| set) 0

/-- Sets of code points are numbers, so that membership can be decided bit by bit. -/
theorem testBit_bitSet (codes : List Nat) (n : Nat) :
    (bitSet codes).testBit n = decide (n ∈ codes) := by
  induction codes with
  | nil => simp [bitSet]
  | cons k rest ih =>
    rw [bitSet, List.foldr_cons, Nat.testBit_or, ← bitSet, ih]
    simp [Nat.one_shiftLeft, Nat.testBit_two_pow, eq_comm]

/-- Images are not changed again. -/
theorem not_mem_changedCodes {n : Nat} (h : n ∈ imageCodes) : n ∉ changedCodes := by
  have hdisjoint : bitSet imageCodes &&& bitSet changedCodes = 0 := by decide +kernel
  have hbit := congrArg (·.testBit n) hdisjoint
  simp only [Nat.testBit_and, testBit_bitSet, h, decide_true, Bool.true_and, Nat.zero_testBit,
    decide_eq_false_iff_not] at hbit
  exact hbit

/-- Images are letters or marks, so they are no punctuation of ASCII. -/
theorem le_of_mem_imageCodes : ∀ n ∈ imageCodes, 0x41 ≤ n := by decide +kernel

theorem UpperSpan.mem_codes {span : UpperSpan} {n : Nat} (h : span.contains n = true) :
    n ∈ span.codes := by
  simp only [contains, Bool.and_eq_true, decide_eq_true_eq, beq_iff_eq] at h
  obtain ⟨⟨hfirst, hlast⟩, hstep⟩ := h
  refine List.mem_range'.2 ⟨(n - span.first) / span.step, ?_, ?_⟩
  · exact Nat.lt_succ_of_le (Nat.div_le_div_right (Nat.sub_le_sub_right hlast _))
  · have hdiv := Nat.div_add_mod (n - span.first) span.step
    omega

/-- Code points that the table does not change stay as they are. -/
theorem upperCodes_eq_self {n : Nat} (h : n ∉ changedCodes) : upperCodes n = [n] := by
  simp only [changedCodes, List.mem_append, not_or] at h
  obtain ⟨-, hspans, hexpansions⟩ := h
  have hfind : upperSpans.find? (·.contains n) = none := by
    refine List.find?_eq_none.2 fun span hspan hn => hspans ?_
    exact List.mem_flatMap.2 ⟨span, hspan, span.mem_codes hn⟩
  have hlookup : upperExpansions.lookup n = none := by
    refine List.lookup_eq_none_iff.2 fun entry hentry => ?_
    have hne : n ≠ entry.1 := fun he => hexpansions (List.mem_map.2 ⟨entry, hentry, he.symm⟩)
    simpa using hne
  rw [upperCodes, hfind, hlookup]
  rfl

/-- A code point is replaced by images, or it stays. -/
theorem upperCodes_cases (n : Nat) :
    (upperCodes n ≠ [] ∧ ∀ k ∈ upperCodes n, k ∈ imageCodes) ∨ upperCodes n = [n] := by
  unfold upperCodes
  cases hfind : upperSpans.find? (·.contains n) with
  | some span =>
    have hspan := List.mem_of_find?_eq_some hfind
    have hn : n ∈ span.codes := span.mem_codes (by simpa using List.find?_some hfind)
    refine Or.inl ⟨by simp, List.forall_mem_singleton.2 (List.mem_append_left _ ?_)⟩
    exact List.mem_flatMap.2 ⟨span, hspan, List.mem_map.2 ⟨n, hn, rfl⟩⟩
  | none =>
    cases hlookup : upperExpansions.lookup n with
    | none => exact Or.inr rfl
    | some codes =>
      have hmem : (n, codes) ∈ upperExpansions := by
        obtain ⟨before, after, hsplit, -⟩ := List.lookup_eq_some_iff.1 hlookup
        rw [hsplit]
        simp
      have hne : ∀ entry ∈ upperExpansions, entry.2 ≠ [] := by decide +kernel
      refine Or.inl ⟨hne _ hmem, fun k hk => List.mem_append_right _ ?_⟩
      exact List.mem_flatMap.2 ⟨_, hmem, hk⟩

/-! ## Characters -/

theorem toNat_ofNat (n : Nat) : (Char.ofNat n).toNat = n ∨ Char.ofNat n = '\x00' := by
  unfold Char.ofNat
  by_cases hvalid : n.isValidChar
  · rw [dif_pos hvalid]
    exact Or.inl rfl
  · rw [dif_neg hvalid]
    exact Or.inr rfl

/-- Upper case of ASCII is not changed again, and it is the character itself or at least `A`. -/
theorem toUpper_cases {c : Char} (h : c.toNat < 0x80) :
    c.toUpper.toUpper = c.toUpper ∧ c.toUpper.toNat < 0x80 ∧
      (c.toUpper = c ∨ 0x41 ≤ c.toUpper.toNat) := by
  have hall : ∀ n < 0x80, (Char.ofNat n).toUpper.toUpper = (Char.ofNat n).toUpper ∧
      (Char.ofNat n).toUpper.toNat < 0x80 ∧
      ((Char.ofNat n).toUpper = Char.ofNat n ∨ 0x41 ≤ (Char.ofNat n).toUpper.toNat) := by
    decide +kernel
  have hc := hall c.toNat h
  rwa [Char.ofNat_toNat] at hc

/-- Characters that the table does not change stay as they are. -/
theorem upperChar_ofNat {n : Nat} (h : n ∉ changedCodes) :
    upperChar (Char.ofNat n) = [Char.ofNat n] := by
  rcases toNat_ofNat n with hn | hzero
  · unfold upperChar
    split
    next hascii =>
      have hsmall : ∀ k < 0x80, k ∉ List.range' 0x61 26 → (Char.ofNat k).toUpper = Char.ofNat k := by
        decide +kernel
      rw [hn] at hascii
      rw [hsmall n hascii fun hrange => h (List.mem_append_left _ hrange)]
    next => rw [hn, upperCodes_eq_self h, List.map_singleton]
  · rw [hzero]
    decide

/-- What upper case gives is not changed again. -/
theorem upperChar_of_mem {c d : Char} (h : d ∈ upperChar c) : upperChar d = [d] := by
  unfold upperChar at h
  split at h
  next hascii =>
    obtain ⟨hfixed, hsmall, -⟩ := toUpper_cases hascii
    rw [List.mem_singleton.1 h, upperChar, if_pos hsmall, hfixed]
  next hascii =>
    obtain ⟨n, hn, rfl⟩ := List.mem_map.1 h
    rcases upperCodes_cases c.toNat with ⟨-, hall⟩ | hself
    · exact upperChar_ofNat (not_mem_changedCodes (hall n hn))
    · rw [hself, List.mem_singleton] at hn
      rw [hn, Char.ofNat_toNat, upperChar, if_neg hascii, hself, List.map_singleton,
        Char.ofNat_toNat]

/-- A character below the letters comes from itself only. -/
theorem eq_of_mem_upperChar {c d : Char} (h : d ∈ upperChar c) (hpos : d ≠ '\x00')
    (hd : d.toNat < 0x41) : d = c := by
  unfold upperChar at h
  split at h
  next hascii =>
    rw [List.mem_singleton.1 h] at hd ⊢
    obtain ⟨-, -, hself | hle⟩ := toUpper_cases hascii
    · exact hself
    · omega
  next =>
    obtain ⟨n, hn, rfl⟩ := List.mem_map.1 h
    rcases upperCodes_cases c.toNat with ⟨-, hall⟩ | hself
    · have hle := le_of_mem_imageCodes n (hall n hn)
      rcases toNat_ofNat n with hn | hzero
      · omega
      · exact absurd hzero hpos
    · rw [hself, List.mem_singleton] at hn
      rw [hn, Char.ofNat_toNat]

theorem upperChar_ne_nil (c : Char) : upperChar c ≠ [] := by
  unfold upperChar
  split
  · simp
  · rcases upperCodes_cases c.toNat with ⟨hne, -⟩ | hself
    · simpa using hne
    · simp [hself]

/-! ## Texts -/

theorem toList_upper (s : String) : (upper s).toList = s.toList.flatMap upperChar := by
  simp [upper]

/-- Upper case is not changed by upper case. -/
theorem upper_upper (s : String) : upper (upper s) = upper s := by
  have hfixed : ∀ c, (upperChar c).flatMap upperChar = upperChar c := by
    intro c
    rw [List.flatMap_congr fun d hd => upperChar_of_mem hd]
    exact List.flatMap_singleton' _
  rw [upper, toList_upper, List.flatMap_assoc]
  simp only [hfixed]
  rfl

/-- A single character below the letters comes from itself only. -/
theorem eq_of_upper_eq_singleton {s : String} {x : Char} (hpos : x ≠ '\x00') (hx : x.toNat < 0x41)
    (h : (upper s).toList = [x]) : s.toList = [x] := by
  rw [toList_upper] at h
  cases hs : s.toList with
  | nil =>
    rw [hs] at h
    cases h
  | cons c rest =>
    rw [hs, List.flatMap_cons] at h
    have hfirst : upperChar c = [x] ∧ rest.flatMap upperChar = [] := by
      rcases List.append_eq_singleton_iff.1 h with ⟨hnil, -⟩ | hboth
      · exact absurd hnil (upperChar_ne_nil c)
      · exact hboth
    have hc : x = c := eq_of_mem_upperChar (by rw [hfirst.1]; simp) hpos hx
    have hrest : rest = [] := by
      refine List.eq_nil_iff_forall_not_mem.2 fun d hd => upperChar_ne_nil d ?_
      exact List.flatMap_eq_nil_iff.1 hfirst.2 d hd
    rw [hc, hrest]

/-- Only `:` has the upper case `:`. -/
theorem eq_colon_of_upper {s : String} (h : upper s = ":") : s = ":" :=
  String.toList_injective (eq_of_upper_eq_singleton (by decide) (by decide) (by rw [h]; rfl))

end StackLogic.Text

namespace StackLogic.Machine.Token

open Text

/-- Upper case puts no quotes around a text. -/
theorem isQuoted_of_upper {t : Token} (h : isQuoted (upper t) = true) : isQuoted t = true := by
  have hquote : ∀ {c}, quote ∈ upperChar c → quote = c :=
    fun hc => eq_of_mem_upperChar hc (by decide) (by decide)
  simp only [isQuoted, Bool.and_eq_true, decide_eq_true_eq, beq_iff_eq, toList_upper,
    ← String.length_toList] at h ⊢
  obtain ⟨⟨hlength, hhead⟩, hlast⟩ := h
  rcases List.eq_nil_or_concat t.toList with hnil | ⟨init, d, hconcat⟩
  · rw [hnil] at hhead
    cases hhead
  · have hd : quote = d := by
      refine hquote (List.mem_of_getLast? (l := upperChar d) ?_)
      rw [hconcat, List.concat_eq_append, List.flatMap_append, List.flatMap_singleton] at hlast
      rwa [List.getLast?_append_of_ne_nil _ (upperChar_ne_nil d)] at hlast
    cases init with
    | nil =>
      rw [hconcat, ← hd] at hlength
      exact absurd hlength (by decide)
    | cons c more =>
      have hc : quote = c := by
        refine hquote (List.mem_of_head? (l := upperChar c) ?_)
        rw [hconcat, List.concat_cons, List.flatMap_cons] at hhead
        rwa [List.head?_append_of_ne_nil _ (upperChar_ne_nil c)] at hhead
      rw [hconcat, ← hc, ← hd, List.concat_eq_append]
      exact ⟨⟨by simp, rfl⟩, List.getLast?_concat⟩

end StackLogic.Machine.Token
