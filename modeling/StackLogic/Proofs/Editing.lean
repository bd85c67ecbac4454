import StackLogic.Console.Basic
import Mathlib.Algebra.Ring.Nat
import Mathlib.Data.List.Chain
import Mathlib.Data.List.Induction
import Mathlib.Logic.Function.Iterate

/-!
# The line editor under all keys

What a key does to the line editor depends on the editor alone (`Editor.react`), so the editor can be
followed through any sequence of keys without the interpreters. `Editor.Sound` is its invariant: the
cursor is inside of the text, the recalled place is inside of the history, and the history has no
blank line and no line twice in a row.

The text is stored in bytes, and a character may take several of them. `insertAt?` and `removeAt?` are
edits at a byte; they fail where no character starts. In a sound editor the edits at the cursor never
do.
-/

namespace StackLogic

namespace Console

variable {c : Console} {e : Editor} {p q : Press} {i j k : Nat}

/-! ## What a key does to the editor -/

/-- Whether the key is one of the characters that stand for something else together with the control
key. -/
def Press.isCommand (p : Press) : Bool :=
  p.control && (p.key == .char 'c' || p.key == .char 'l' || p.key == .char 'r')

/-- What a key press does to the line editor. -/
def Editor.react (e : Editor) (p : Press) : Editor :=
  match p.key with
  | .enter =>
    if Text.isBlankString (String.ofList e.text) then e.clear else e.clear.remember e.text
  | .char ch => if p.isCommand then e else e.insert ch
  | .backspace => e.backspace
  | .delete => e.delete
  | .left => e.left
  | .right => e.right
  | .home => e.toStart
  | .endKey => e.toEnd
  | .up => e.previous
  | .down => e.next
  | _ => e

/-- Enter clears the text, and remembers it unless it is blank. -/
theorem editor_submit (c : Console) :
    c.submit.editor =
      if Text.isBlankString (String.ofList c.editor.text) then c.editor.clear
      else c.editor.clear.remember c.editor.text := by
  unfold submit
  dsimp only
  split
  · rfl
  · rfl

/-- Characters are inserted, except those that are commands with Control. -/
theorem editor_type (c : Console) (control : Bool) (ch : Char) :
    (c.type control ch).editor =
      if Press.isCommand ⟨.char ch, control⟩ then c.editor else c.editor.insert ch := by
  unfold type
  split
  · rfl
  · rfl
  · rfl
  next hc hl hr =>
    have hplain : Press.isCommand ⟨.char ch, control⟩ = false := by
      cases control with
      | false => rfl
      | true =>
        have hne : ch ≠ 'c' ∧ ch ≠ 'l' ∧ ch ≠ 'r' := ⟨hc rfl, hl rfl, hr rfl⟩
        simp [Press.isCommand, hne]
    rw [hplain]
    rfl

theorem editor_scroll (c : Console) (f : Nat → Nat) : (c.scroll f).editor = c.editor := by
  unfold scroll
  split <;> rfl

theorem press_function (c : Console) {n : Nat} (hn : n ≠ 1) (control : Bool) :
    c.press ⟨.function n, control⟩ = c := by
  unfold press
  split <;> simp_all

/-- What a key does to the editor depends on the editor alone. -/
theorem editor_press (c : Console) (p : Press) : (c.press p).editor = c.editor.react p := by
  obtain ⟨key, control⟩ := p
  cases key with
  | enter => exact c.editor_submit
  | char ch => exact c.editor_type control ch
  | pageUp | pageDown => exact c.editor_scroll _
  | function n =>
    by_cases hn : n = 1
    · rw [hn]
      rfl
    · rw [c.press_function hn control]
      rfl
  | _ => rfl

/-! ## The invariant -/

/-- The invariant of the line editor. -/
structure Editor.Sound (e : Editor) : Prop where
  cursor : e.cursor ≤ e.text.length
  recalled : ∀ i, e.recalled = some i → i < e.history.length
  notBlank : ∀ line ∈ e.history, line.all Text.isBlank = false
  noRepeat : e.history.IsChain (· ≠ ·)

namespace Editor

theorem sound_empty : Sound {} where
  cursor := Nat.le_refl _
  recalled := nofun
  notBlank := List.forall_mem_nil _
  noRepeat := .nil

theorem Sound.insert (h : e.Sound) (ch : Char) : (e.insert ch).Sound where
  cursor := by
    have hcursor := h.cursor
    simp only [Editor.insert, List.length_append, List.length_take, List.length_cons,
      List.length_drop]
    omega
  recalled := h.recalled
  notBlank := h.notBlank
  noRepeat := h.noRepeat

theorem Sound.delete (h : e.Sound) : e.delete.Sound where
  cursor := by
    have hcursor := h.cursor
    simp only [Editor.delete, List.length_eraseIdx]
    split <;> omega
  recalled := h.recalled
  notBlank := h.notBlank
  noRepeat := h.noRepeat

theorem Sound.backspace (h : e.Sound) : e.backspace.Sound := by
  unfold Editor.backspace
  split
  · exact h
  next before hbefore =>
    have hcursor := h.cursor
    refine ⟨?_, h.recalled, h.notBlank, h.noRepeat⟩
    show before ≤ (e.text.eraseIdx before).length
    rw [List.length_eraseIdx]
    split <;> omega

/-- Moving the cursor inside of the text. -/
theorem Sound.move (h : e.Sound) {place : Nat} (hplace : place ≤ e.text.length) :
    Sound { e with cursor := place } :=
  ⟨hplace, h.recalled, h.notBlank, h.noRepeat⟩

/-- A line that is brought back from the history is sound, with the cursor at its end. -/
theorem Sound.bringBack (h : e.Sound) (hi : i < e.history.length) : (e.bringBack i).Sound where
  cursor := Nat.le_refl _
  recalled := by
    intro j hj
    have hij : i = j := Option.some.inj hj
    rwa [← hij]
  notBlank := h.notBlank
  noRepeat := h.noRepeat

theorem Sound.clear (h : e.Sound) : e.clear.Sound where
  cursor := Nat.le_refl _
  recalled := nofun
  notBlank := h.notBlank
  noRepeat := h.noRepeat

/-- Up shows a line of the history, if there is any. -/
theorem Sound.previous_cases (h : e.Sound) :
    (e.history = [] ∧ e.previous = e) ∨
      ∃ j, j < e.history.length ∧ e.previous = e.bringBack j := by
  unfold Editor.previous
  split
  next hempty => exact .inl ⟨List.isEmpty_iff.1 hempty, rfl⟩
  next hempty =>
    have hpos : 0 < e.history.length := by
      rw [List.length_pos_iff]
      simpa using hempty
    right
    split
    next i hi =>
      have hlt := h.recalled i hi
      exact ⟨i - 1, by omega, rfl⟩
    next => exact ⟨e.history.length - 1, by omega, rfl⟩

/-- Down does nothing, empties the text or shows a line of the history. -/
theorem next_cases (e : Editor) :
    (e.recalled = none ∧ e.next = e) ∨ e.next = e.clear ∨
      ∃ j, j < e.history.length ∧ e.next = e.bringBack j := by
  unfold Editor.next
  split
  next hrecalled => exact .inl ⟨hrecalled, rfl⟩
  next i _ =>
    right
    split
    next hlt => exact .inr ⟨i + 1, hlt, rfl⟩
    next => exact .inl rfl

theorem Sound.previous (h : e.Sound) : e.previous.Sound := by
  rcases h.previous_cases with ⟨_, hsame⟩ | ⟨j, hj, hback⟩
  · rwa [hsame]
  · rw [hback]
    exact h.bringBack hj

theorem Sound.next (h : e.Sound) : e.next.Sound := by
  rcases e.next_cases with ⟨_, hsame⟩ | hclear | ⟨j, hj, hback⟩
  · rwa [hsame]
  · rw [hclear]
    exact h.clear
  · rw [hback]
    exact h.bringBack hj

/-- Remembering a line that is not blank brings neither a blank line nor a repetition into the
history. -/
theorem Sound.remember (h : e.Sound) {line : List Char} (hline : line.all Text.isBlank = false) :
    (e.remember line).Sound := by
  unfold Editor.remember
  split
  · exact h
  next hlast =>
    refine ⟨h.cursor, fun i hi => ?_, fun other hother => ?_, ?_⟩
    · have hlt := h.recalled i hi
      simp only [List.length_append]
      omega
    · rcases List.mem_append.1 hother with hmem | hmem
      · exact h.notBlank other hmem
      · rw [List.mem_singleton.1 hmem]
        exact hline
    · refine List.isChain_append.2 ⟨h.noRepeat, .singleton line, fun x hx y hy => ?_⟩
      have hy' : line = y := Option.some.inj hy
      rintro rfl
      exact hlast (hy' ▸ hx)

/-- Every key keeps the editor sound. -/
theorem Sound.react (h : e.Sound) (p : Press) : (e.react p).Sound := by
  have hcursor := h.cursor
  obtain ⟨key, control⟩ := p
  cases key with
  | enter =>
    show Sound (if Text.isBlankString (String.ofList e.text) then _ else _)
    split
    · exact h.clear
    next hblank =>
      refine h.clear.remember ?_
      simpa [Text.isBlankString] using hblank
  | char ch =>
    show Sound (if Press.isCommand ⟨.char ch, control⟩ then _ else _)
    split
    · exact h
    · exact h.insert ch
  | backspace => exact h.backspace
  | delete => exact h.delete
  | left => exact h.move (by omega)
  | right => exact h.move (Nat.min_le_right _ _)
  | home => exact h.move (Nat.zero_le _)
  | endKey => exact h.move (Nat.le_refl _)
  | up => exact h.previous
  | down => exact h.next
  | _ => exact h

end Editor

/-- The invariant holds after any keys. -/
theorem sound_foldl_press (h : c.editor.Sound) (presses : List Press) :
    (presses.foldl press c).editor.Sound := by
  induction presses generalizing c with
  | nil => exact h
  | cons p rest ih =>
    refine ih ?_
    rw [editor_press]
    exact h.react p

/-! ## Edits at the cursor -/

/-- How keys that edit change the text when `before` is before the cursor and `after` behind it. -/
structure EditsBetween (c : Console) (before after : List Char) : Prop where
  typed : ∀ p ch, p.key = .char ch → p.isCommand = false →
    (c.press p).editor =
      { c.editor with text := before ++ ch :: after, cursor := before.length + 1 }
  erased : ∀ p, p.key = .backspace →
    (c.press p).editor =
      { c.editor with text := before.dropLast ++ after, cursor := before.length - 1 }
  deleted : ∀ p, p.key = .delete →
    (c.press p).editor = { c.editor with text := before ++ after.tail }

namespace Editor

theorem insert_between {before after : List Char} (htext : e.text = before ++ after)
    (hcursor : e.cursor = before.length) (ch : Char) :
    e.insert ch = { e with text := before ++ ch :: after, cursor := before.length + 1 } := by
  unfold Editor.insert
  rw [htext, hcursor, List.take_left, List.drop_left]

theorem backspace_between {before after : List Char} (htext : e.text = before ++ after)
    (hcursor : e.cursor = before.length) :
    e.backspace = { e with text := before.dropLast ++ after, cursor := before.length - 1 } := by
  obtain ⟨text, cursor, history, recalled⟩ := e
  dsimp only at htext hcursor
  subst htext hcursor
  cases before using List.reverseRecOn with
  | nil => rfl
  | append_singleton init x =>
    have hlength : (init ++ [x]).length = init.length + 1 := by simp
    have herase : (init ++ [x] ++ after).eraseIdx init.length = init ++ after := by
      rw [List.append_assoc, List.eraseIdx_append_of_length_le (Nat.le_refl _), Nat.sub_self]
      rfl
    unfold Editor.backspace
    simp only [hlength, herase, List.dropLast_concat, Nat.add_sub_cancel]

theorem delete_between {before after : List Char} (htext : e.text = before ++ after)
    (hcursor : e.cursor = before.length) :
    e.delete = { e with text := before ++ after.tail } := by
  have herase : e.text.eraseIdx e.cursor = before ++ after.tail := by
    rw [htext, hcursor, List.eraseIdx_append_of_length_le (Nat.le_refl _), Nat.sub_self,
      List.eraseIdx_zero]
  unfold Editor.delete
  rw [herase]

end Editor

/-- Edits at the cursor are edits between the texts before and after it. -/
theorem editsBetween {before after : List Char} (htext : c.editor.text = before ++ after)
    (hcursor : c.editor.cursor = before.length) : c.EditsBetween before after where
  typed := by
    intro p ch hkey hplain
    have hreact : c.editor.react p = c.editor.insert ch := by
      simp [Editor.react, hkey, hplain]
    rw [editor_press, hreact, Editor.insert_between htext hcursor]
  erased := by
    intro p hkey
    have hreact : c.editor.react p = c.editor.backspace := by simp [Editor.react, hkey]
    rw [editor_press, hreact, Editor.backspace_between htext hcursor]
  deleted := by
    intro p hkey
    have hreact : c.editor.react p = c.editor.delete := by simp [Editor.react, hkey]
    rw [editor_press, hreact, Editor.delete_between htext hcursor]

/-! ### Edits at a byte -/

/-- The bytes at which characters start, with the characters; the first one starts at `start`. -/
def charIndices (start : Nat) : List Char → List (Nat × Char)
  | [] => []
  | c :: rest => (start, c) :: charIndices (start + c.utf8Size) rest

/-- How many bytes a text takes. -/
def byteSize (cs : List Char) : Nat := (cs.map Char.utf8Size).sum

/-- The byte at which the character with this index starts; the end of the text if there is none. -/
def byteIndex (cs : List Char) (i : Nat) : Nat :=
  ((charIndices 0 cs)[i]?.map Prod.fst).getD (byteSize cs)

/-- Put a character in at a byte. This fails inside of a character and behind the text. -/
def insertAt? (place : Nat) (ch : Char) : List Char → Option (List Char)
  | [] => if place = 0 then some [ch] else none
  | c :: rest =>
    if place = 0 then some (ch :: c :: rest)
    else if place < c.utf8Size then none
    else (insertAt? (place - c.utf8Size) ch rest).map (c :: ·)

/-- Remove the character that starts at a byte. This fails where none does. -/
def removeAt? (place : Nat) : List Char → Option (List Char)
  | [] => none
  | c :: rest =>
    if place = 0 then some rest
    else if place < c.utf8Size then none
    else (removeAt? (place - c.utf8Size) rest).map (c :: ·)

theorem getElem?_charIndices (start : Nat) (cs : List Char) (i : Nat) :
    (charIndices start cs)[i]? = cs[i]?.map fun c => (start + byteSize (cs.take i), c) := by
  induction cs generalizing start i with
  | nil => simp [charIndices]
  | cons c rest ih =>
    cases i with
    | zero => simp [charIndices, byteSize]
    | succ i => simp [charIndices, byteSize, ih, Nat.add_assoc]

/-- The bytes in front of a character, or of the end, are those of the characters before it. -/
theorem byteIndex_length (before after : List Char) :
    byteIndex (before ++ after) before.length = byteSize before := by
  unfold byteIndex
  rw [getElem?_charIndices, List.take_left]
  cases after with
  | nil => simp
  | cons c rest => simp

/-- An insertion behind a text is at the number of its bytes. -/
theorem insertAt?_byteSize (before after : List Char) (ch : Char) :
    insertAt? (byteSize before) ch (before ++ after) = some (before ++ ch :: after) := by
  induction before with
  | nil => cases after <;> rfl
  | cons c rest ih =>
    have hsize : byteSize (c :: rest) = c.utf8Size + byteSize rest := by simp [byteSize]
    have hpos := c.utf8Size_pos
    rw [List.cons_append, insertAt?, if_neg (by omega), if_neg (by omega), hsize,
      Nat.add_sub_cancel_left, ih]
    rfl

/-- A removal behind a text is at the number of its bytes. -/
theorem removeAt?_byteSize (before rest : List Char) (ch : Char) :
    removeAt? (byteSize before) (before ++ ch :: rest) = some (before ++ rest) := by
  induction before with
  | nil => rfl
  | cons c more ih =>
    have hsize : byteSize (c :: more) = c.utf8Size + byteSize more := by simp [byteSize]
    have hpos := c.utf8Size_pos
    rw [List.cons_append, removeAt?, if_neg (by omega), if_neg (by omega), hsize,
      Nat.add_sub_cancel_left, ih]
    rfl

/-- Edits at the byte that belongs to the cursor succeed, and they give the text of the editor. -/
structure Editor.EditsBytes (e : Editor) : Prop where
  inserted : ∀ ch, insertAt? (byteIndex e.text e.cursor) ch e.text = some (e.insert ch).text
  erased : 0 < e.cursor →
    removeAt? (byteIndex e.text (e.cursor - 1)) e.text = some e.backspace.text
  deleted : e.cursor < e.text.length →
    removeAt? (byteIndex e.text e.cursor) e.text = some e.delete.text

/-- The edits at the byte of the cursor are those at the cursor. -/
theorem Editor.editsBytes {before after : List Char} (htext : e.text = before ++ after)
    (hcursor : e.cursor = before.length) : e.EditsBytes where
  inserted := by
    intro ch
    rw [insert_between htext hcursor, htext, hcursor, byteIndex_length, insertAt?_byteSize]
  erased := by
    intro hpos
    rw [backspace_between htext hcursor, htext, hcursor]
    cases before using List.reverseRecOn with
    | nil => simp [hcursor] at hpos
    | append_singleton init x =>
      rw [List.append_assoc, List.length_append, List.length_singleton, Nat.add_sub_cancel,
        byteIndex_length, List.singleton_append, removeAt?_byteSize, List.dropLast_concat]
  deleted := by
    intro hlt
    rw [delete_between htext hcursor, htext, hcursor, byteIndex_length]
    cases after with
    | nil => simp [htext, hcursor] at hlt
    | cons ch rest => exact removeAt?_byteSize before rest ch

/-! ## Walking through the history -/

namespace Editor

/-- Up goes to the line before, as far as there is one. -/
theorem previous_bringBack (hpos : 1 ≤ e.history.length) (i : Nat) :
    (e.bringBack i).previous = e.bringBack (i - 1) := by
  have hne : e.history.isEmpty = false := by
    rw [← Bool.not_eq_true, List.isEmpty_iff, ← List.length_eq_zero_iff]
    omega
  have hne' : (e.bringBack i).history.isEmpty = false := hne
  unfold previous
  rw [hne']
  rfl

/-- Going back leads from the latest line to the oldest, and stays there. -/
theorem previous_iterate (hrecalled : e.recalled = none) (hpos : 1 ≤ e.history.length) (k : Nat) :
    previous^[k + 1] e = e.bringBack (e.history.length - (k + 1)) := by
  induction k with
  | zero =>
    have hne : e.history.isEmpty = false := by
      rw [← Bool.not_eq_true, List.isEmpty_iff, ← List.length_eq_zero_iff]
      omega
    show e.previous = _
    unfold previous
    rw [hne, hrecalled]
    rfl
  | succ k ih =>
    rw [Function.iterate_succ_apply', ih, previous_bringBack hpos, Nat.sub_sub]

/-- Down goes to the line after, and behind the last one to an empty text. -/
theorem next_bringBack (e : Editor) (i : Nat) :
    (e.bringBack i).next = if i + 1 < e.history.length then e.bringBack (i + 1) else e.clear := by
  show (if i + 1 < e.history.length then (e.bringBack i).bringBack (i + 1)
    else { e.bringBack i with recalled := none }.replace []) = _
  split
  · rfl
  · rfl

/-- Going forward leads to the latest line, then out of the history. -/
theorem next_iterate (hi : i < e.history.length) (j : Nat) :
    next^[j] (e.bringBack i) =
      if i + j < e.history.length then e.bringBack (i + j) else e.clear := by
  induction j with
  | zero => rw [Nat.add_zero, if_pos hi, Function.iterate_zero_apply]
  | succ j ih =>
    rw [Function.iterate_succ_apply', ih]
    by_cases hj : i + j < e.history.length
    · rw [if_pos hj, next_bringBack, Nat.add_assoc]
    · rw [if_neg hj, if_neg (by omega)]
      rfl

theorem getElem?_bringBack (hi : i < e.history.length) :
    e.history[i]? = some (e.bringBack i).text := by
  show e.history[i]? = some (e.history[i]?.getD [])
  rw [List.getElem?_eq_getElem hi]
  rfl

/-- A line that is brought back is in the history. -/
theorem Sound.getElem?_of_recalled (h : e.Sound) (hp : p.key = .up ∨ p.key = .down)
    (hi : (e.react p).recalled = some i) : e.history[i]? = some (e.react p).text := by
  have hback : ∀ j, j < e.history.length → e.react p = e.bringBack j →
      e.history[i]? = some (e.react p).text := by
    intro j hj hreact
    rw [hreact] at hi ⊢
    have hij : j = i := Option.some.inj hi
    rw [← hij]
    exact getElem?_bringBack hj
  rcases hp with hkey | hkey
  · have hreact : e.react p = e.previous := by simp [Editor.react, hkey]
    rcases h.previous_cases with ⟨hempty, hsame⟩ | ⟨j, hj, hprevious⟩
    · rw [hreact, hsame] at hi
      have hlt := h.recalled i hi
      simp [hempty] at hlt
    · exact hback j hj (hreact.trans hprevious)
  · have hreact : e.react p = e.next := by simp [Editor.react, hkey]
    rcases e.next_cases with ⟨hnone, hsame⟩ | hclear | ⟨j, hj, hnext⟩
    · rw [hreact, hsame, hnone] at hi
      cases hi
    · rw [hreact, hclear] at hi
      cases hi
    · exact hback j hj (hreact.trans hnext)

end Editor

/-- Keys that touch the editor only can be followed in the editor. -/
theorem editor_iterate_press (c : Console) (p : Press) (k : Nat) :
    ((press · p)^[k] c).editor = (Editor.react · p)^[k] c.editor := by
  induction k with
  | zero => rfl
  | succ k ih => rw [Function.iterate_succ_apply', Function.iterate_succ_apply', editor_press, ih]

/-- In every state that any keys lead to, the line editor is sound: the cursor is inside of the text,
the recalled place inside of the history, and the history has no blank line and no line twice in a
row. Keys that edit change the text exactly at the cursor, and done at bytes these edits never meet
the inside of a character or the end. A line that is brought back is in the history. Going back `k`
times leads to the `k`-th latest line or the oldest one, and going forward from there leads line by
line to the latest and then to an empty line outside of the history. -/
theorem keys_edit_in_range (session : Session) (language : Language) (presses : List Press) :
    let c := presses.foldl press (fresh session language)
    let n := c.editor.history.length
    c.editor.Sound ∧
    (∃ before after, c.editor.text = before ++ after ∧ c.editor.cursor = before.length ∧
      c.EditsBetween before after) ∧
    c.editor.EditsBytes ∧
    (∀ p i, p.key = .up ∨ p.key = .down → (c.press p).editor.recalled = some i →
      c.editor.history[i]? = some (c.press p).editor.text) ∧
    (c.editor.recalled = none → 1 ≤ n → ∀ p q, p.key = .up → q.key = .down → ∀ k, 1 ≤ k →
      c.editor.history[n - k]? = some ((press · p)^[k] c).editor.text ∧
      ∀ j,
        (n - k + j < n → c.editor.history[n - k + j]? =
          some ((press · q)^[j] ((press · p)^[k] c)).editor.text) ∧
        (n ≤ n - k + j → ((press · q)^[j] ((press · p)^[k] c)).editor.text = [] ∧
          ((press · q)^[j] ((press · p)^[k] c)).editor.recalled = none)) := by
  intro c n
  have hsound : c.editor.Sound := sound_foldl_press Editor.sound_empty presses
  have htext : c.editor.text = c.editor.text.take c.editor.cursor ++
      c.editor.text.drop c.editor.cursor := (List.take_append_drop _ _).symm
  have hcursor : c.editor.cursor = (c.editor.text.take c.editor.cursor).length := by
    rw [List.length_take, Nat.min_eq_left hsound.cursor]
  refine ⟨hsound, ⟨_, _, htext, hcursor, editsBetween htext hcursor⟩,
    Editor.editsBytes htext hcursor, fun p i hp hi => ?_, fun hnone hpos p q hp hq k hk => ?_⟩
  · rw [editor_press] at hi ⊢
    exact hsound.getElem?_of_recalled hp hi
  · obtain ⟨k, rfl⟩ : ∃ k', k = k' + 1 := ⟨k - 1, by omega⟩
    have hprevious : (Editor.react · p) = Editor.previous := by
      funext e
      simp [Editor.react, hp]
    have hnext : (Editor.react · q) = Editor.next := by
      funext e
      simp [Editor.react, hq]
    have hlt : n - (k + 1) < n := by omega
    simp only [editor_iterate_press, hprevious, hnext, Editor.previous_iterate hnone hpos]
    refine ⟨Editor.getElem?_bringBack hlt, fun j => ⟨fun hj => ?_, fun hj => ?_⟩⟩
    · rw [Editor.next_iterate hlt, if_pos hj]
      exact Editor.getElem?_bringBack hj
    · rw [Editor.next_iterate hlt, if_neg (Nat.not_lt.2 hj)]
      exact ⟨rfl, rfl⟩

/-- The keys that submit the lines `a` and `éb`. -/
def twoLines : List Press :=
  [⟨.char 'a', false⟩, ⟨.enter, false⟩, ⟨.char 'é', false⟩, ⟨.char 'b', false⟩, ⟨.enter, false⟩]

theorem editor_foldl_press (c : Console) (presses : List Press) :
    (presses.foldl press c).editor = presses.foldl Editor.react c.editor := by
  induction presses generalizing c with
  | nil => rfl
  | cons p rest ih => rw [List.foldl_cons, List.foldl_cons, ih, editor_press]

/-- After the lines `a` and `éb`, going back twice shows `a`, going forward then shows `éb` and after
it an empty line. Between the two characters of `éb`, an edit takes place at the third byte. -/
theorem keys_edit_in_range_twoLines :
    (twoLines.foldl press (fresh (.fresh {}) .forth)).editor.history = [['a'], ['é', 'b']] ∧
    ((press · ⟨.up, false⟩)^[2] (twoLines.foldl press (fresh (.fresh {}) .forth))).editor.text =
      ['a'] ∧
    ((press · ⟨.down, false⟩)^[1]
      ((press · ⟨.up, false⟩)^[2] (twoLines.foldl press (fresh (.fresh {}) .forth)))).editor.text =
      ['é', 'b'] ∧
    ((press · ⟨.down, false⟩)^[2]
      ((press · ⟨.up, false⟩)^[2] (twoLines.foldl press (fresh (.fresh {}) .forth)))).editor.text =
      [] ∧
    insertAt? 2 'x' ['é', 'b'] = some ['é', 'x', 'b'] := by
  have heditor : (twoLines.foldl press (fresh (.fresh {}) .forth)).editor =
      { history := [['a'], ['é', 'b']] } := by
    rw [editor_foldl_press]
    decide +kernel
  obtain ⟨-, -, -, -, hwalk⟩ := keys_edit_in_range (.fresh {}) .forth twoLines
  rw [heditor] at hwalk
  obtain ⟨hup, hdown⟩ := hwalk rfl (by decide) ⟨.up, false⟩ ⟨.down, false⟩ rfl rfl 2 (by decide)
  have hbetween : ((twoLines ++ [Press.mk .up false, Press.mk .left false]).foldl press
      (fresh (.fresh {}) .forth)).editor =
      { text := ['é', 'b'], cursor := 1, history := [['a'], ['é', 'b']], recalled := some 1 } := by
    rw [editor_foldl_press]
    decide +kernel
  have hbytes := (keys_edit_in_range (.fresh {}) .forth
    (twoLines ++ [Press.mk .up false, Press.mk .left false])).2.2.1
  rw [hbetween] at hbytes
  refine ⟨by rw [heditor], (Option.some.inj hup).symm, (Option.some.inj ((hdown 1).1 ?_)).symm,
    ((hdown 2).2 ?_).1, hbytes.inserted 'x'⟩
  · decide
  · decide

end Console

end StackLogic
