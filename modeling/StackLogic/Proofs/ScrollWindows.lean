import StackLogic.Console.Screen
import Mathlib.Data.List.Basic

/-!
# Scroll windows

A pane shows a window on its items. Drawing limits the scroll offset so that the last item does not
leave the last row, and the rows are then the items from the offset on. Whatever the items are, such
a window reaches all of them (`clampScroll_reaches`), and it reaches the end from the greatest offset
(`clampScroll_reaches_end`).

What a terminal does with an item or an offset is assumed (`Terminal.Lawful`): a list shows whole
items in order, and a scrolled paragraph drops its first lines. The standard terminal is lawful
(`Terminal.standard_lawful`).

On such a terminal the two panes are windows with one exception each (`scroll_windows_exact`). The
state pane draws its offset modulo `2 ^ 16`, so it is one below that offset only. The transcript pane
limits its offset by entries and not by rows: where an entry takes several rows, the last entries of
the window have no room (`scroll_windows_inexact`).
-/

namespace StackLogic.Console

variable {T : Terminal} {c : Console} {width h n i j room offset total : Nat} {e : Entry}

/-! ## Offsets -/

/-- Every item among those that an offset asks for is in a row of its window. -/
theorem clampScroll_reaches (hj : j < total) (hn : n ≤ j) (hwindow : j < n + (h - 2)) :
    ∃ i < h - 2, clampScroll n total h + i = j := by
  unfold clampScroll visibleRows
  exact ⟨j - min n (total - max (h - 2) 1), by omega, by omega⟩

/-- From an offset at the last window or beyond it, the last item is in some row. -/
theorem clampScroll_reaches_end (htotal : 0 < total) (hh : 3 ≤ h) (hn : total - (h - 2) ≤ n) :
    ∃ i < h - 2, clampScroll n total h + i = total - 1 := by
  unfold clampScroll visibleRows
  exact ⟨total - 1 - min n (total - max (h - 2) 1), by omega, by omega⟩

theorem clampScroll_le (n total h : Nat) : clampScroll n total h ≤ n := Nat.min_le_left _ _

/-- Drawing does not scroll beyond the last window. -/
theorem clampScroll_le_sub (hh : 3 ≤ h) (n total : Nat) :
    clampScroll n total h ≤ total - (h - 2) := by
  unfold clampScroll visibleRows
  omega

/-! ## Lawful terminals -/

namespace Terminal

/-- What the console relies on. -/
structure Lawful (T : Terminal) : Prop where
  /-- Every item of a list takes a row. -/
  itemRows_ne_nil : ∀ text, T.itemRows text ≠ []
  /-- A list shows its items in order and as a whole, as many of them as fit. -/
  list : ∀ room items, ∃ k, T.list room items = (items.take k).flatMap T.itemRows ∧
    (T.list room items).length ≤ room ∧
    ∀ item, items[k]? = some item →
      room < (T.list room items).length + (T.itemRows item).length
  /-- A scrolled paragraph drops as many lines as the offset says and shows the others in order, if
  the last line that has room is counted. -/
  paragraph : ∀ room offset lines, room + offset ≤ T.lastLine → ∀ i < room,
    (T.paragraph room offset lines)[i]? = (lines[offset + i]?).map T.lineRow
  /-- A box shows its rows between its sides. -/
  box : ∀ title width height rows, ∀ i < height - 2,
    (T.box title width height rows)[i + 1]? = some (T.sides width (rows[i]?.getD []))

/-- A paragraph with so many rows can be drawn from this offset on: the offset is a screen coordinate,
and the last line is counted. -/
def Draws (T : Terminal) (room offset : Nat) : Prop :=
  offset < UInt16.size ∧ room + offset ≤ T.lastLine

instance (T : Terminal) (room offset : Nat) : Decidable (T.Draws room offset) :=
  inferInstanceAs (Decidable (_ ∧ _))

theorem Draws.of_le (h : T.Draws room offset) (hn : n ≤ offset) : T.Draws room n :=
  ⟨Nat.lt_of_le_of_lt hn h.1, Nat.le_trans (Nat.add_le_add_left hn room) h.2⟩

/-- There are no more items than rows. -/
theorem Lawful.length_le_flatMap (hT : T.Lawful) (items : List String) :
    items.length ≤ (items.flatMap T.itemRows).length := by
  induction items with
  | nil => exact Nat.le_refl 0
  | cons item rest ih =>
    have hpos := List.length_pos_iff.2 (hT.itemRows_ne_nil item)
    rw [List.flatMap_cons, List.length_append, List.length_cons]
    omega

/-- Since every item takes a row, a list shows no more items than it has rows. -/
theorem Lawful.exists_list_take_eq (hT : T.Lawful) (items : List String) (hn : room ≤ n) :
    ∃ k, T.list room (items.take n) = (items.take k).flatMap T.itemRows ∧
      (T.list room (items.take n)).length ≤ room ∧
      ∀ item, items[k]? = some item →
        room < (T.list room (items.take n)).length + (T.itemRows item).length := by
  obtain ⟨k, hrows, hle, hnext⟩ := hT.list room (items.take n)
  by_cases hk : k < n
  · refine ⟨k, ?_, hle, fun item hitem => hnext item ?_⟩
    · rw [hrows, List.take_take, Nat.min_eq_left (Nat.le_of_lt hk)]
    · rw [List.getElem?_take_of_lt hk, hitem]
  · have hall : T.list room (items.take n) = (items.take n).flatMap T.itemRows := by
      rw [hrows, List.take_take, Nat.min_eq_right (Nat.le_of_not_lt hk)]
    refine ⟨n, hall, hle, fun item hitem => ?_⟩
    -- all rows are taken, and the item takes one more
    have hpos := List.length_pos_iff.2 (hT.itemRows_ne_nil item)
    have hlength : (items.take n).length = n :=
      List.length_take_of_le (Nat.le_of_lt (List.getElem?_eq_some_iff.1 hitem).1)
    have hmany := hT.length_le_flatMap (items.take n)
    rw [hlength, ← hall] at hmany
    omega

/-- The first row of an item. -/
def itemRow (T : Terminal) (text : String) : Row := (T.itemRows text).headD []

theorem itemRows_eq {text : String} (h : (T.itemRows text).length = 1) :
    T.itemRows text = [T.itemRow text] := by
  obtain ⟨row, hrow⟩ := List.length_eq_one_iff.1 h
  rw [itemRow, hrow]
  rfl

/-- Items that take one row each are shown row by row. -/
theorem Lawful.list_getElem? (hT : T.Lawful) {items : List String}
    (hone : ∀ item ∈ items.take room, (T.itemRows item).length = 1) (hi : i < room) :
    (T.list room items)[i]? = items[i]?.map T.itemRow := by
  obtain ⟨k, hrows, hle, hnext⟩ := hT.list room items
  have hfits : (items.take k).length ≤ room := by
    have hmany := hT.length_le_flatMap (items.take k)
    rw [← hrows] at hmany
    omega
  have hsub : ∀ item ∈ items.take k, item ∈ items.take room := by
    intro item hitem
    rw [← List.take_of_length_le hfits, List.take_take] at hitem
    exact (List.take_sublist_take_left (Nat.min_le_left room k)).subset hitem
  have hshown : T.list room items = (items.take k).map T.itemRow := by
    rw [hrows, List.map_eq_flatMap]
    exact List.flatMap_congr fun item hitem => itemRows_eq (hone item (hsub item hitem))
  rw [hshown, List.getElem?_map]
  by_cases hk : i < k
  · rw [List.getElem?_take_of_lt hk]
  · rw [List.getElem?_eq_none (by rw [List.length_take]; omega)]
    cases hitem : items[i]? with
    | none => rfl
    | some item =>
      -- otherwise there would be room for the item behind those that are shown
      have hlt : k < items.length := by
        have := (List.getElem?_eq_some_iff.1 hitem).1
        omega
      have hmore := hnext _ (List.getElem?_eq_getElem hlt)
      rw [hshown, List.length_map, List.length_take,
        hone _ (List.mem_take_iff_getElem.2 ⟨k, by omega, rfl⟩)] at hmore
      omega

/-! ### The standard terminal -/

/-- What has room are as many whole items as fit. -/
theorem exists_fill_eq (room : Nat) (items : List String) :
    ∃ k, fill room (items.map textRows) = (items.take k).flatMap textRows ∧
      (fill room (items.map textRows)).length ≤ room ∧
      ∀ item, items[k]? = some item →
        room < (fill room (items.map textRows)).length + (textRows item).length := by
  induction items generalizing room with
  | nil => exact ⟨0, rfl, Nat.zero_le _, by simp⟩
  | cons item rest ih =>
    rw [List.map_cons, fill]
    split
    next hfits =>
      obtain ⟨k, heq, hle, hnext⟩ := ih (room - (textRows item).length)
      refine ⟨k + 1, ?_, ?_, fun next hk => ?_⟩
      · rw [heq, List.take_succ_cons, List.flatMap_cons]
      · rw [List.length_append]
        omega
      · have hlt := hnext next hk
        rw [List.length_append]
        omega
    next hfull =>
      refine ⟨0, rfl, Nat.zero_le _, fun next hk => ?_⟩
      cases hk
      rw [List.length_nil]
      omega

theorem drawBox_getElem?_succ (title : String) (width : Nat) {height : Nat} (rows : List Row)
    (hi : i < height - 2) :
    (drawBox title width height rows)[i + 1]? = some (boxRow width (rows[i]?.getD [])) := by
  unfold drawBox
  dsimp only
  rw [List.cons_append, List.getElem?_cons_succ, List.getElem?_append_left (by simpa using hi),
    List.getElem?_map, List.getElem?_range hi]
  rfl

/-- The terminal that the console runs on keeps the laws. -/
theorem standard_lawful : standard.Lawful where
  itemRows_ne_nil text := by
    show textRows text ≠ []
    unfold textRows
    split
    · exact List.cons_ne_nil _ _
    next hne => exact hne
  list := exists_fill_eq
  paragraph room offset lines hlast i hi := by
    have hcounted : (room + offset) % UInt16.size = room + offset :=
      Nat.mod_eq_of_lt (Nat.lt_of_le_of_lt hlast (by decide))
    show (scrolled room offset lines)[i]? = _
    rw [scrolled, hcounted, List.getElem?_map, List.getElem?_drop,
      List.getElem?_take_of_lt (by omega)]
    rfl
  box title width _ rows _ hi := drawBox_getElem?_succ title width rows hi

end Terminal

/-! ## The rows of the two panes -/

/-- The rows of an entry in the transcript pane. -/
def entryRows (T : Terminal) (e : Entry) : List Row := (T.itemRows e.text).map (T.padded 1)

/-- The first row of an entry. -/
def entryRow (T : Terminal) (e : Entry) : Row := T.padded 1 (T.itemRow e.text)

/-- The entry takes one row of the transcript pane. -/
def Entry.TakesOneRow (T : Terminal) (e : Entry) : Prop := (entryRows T e).length = 1

instance (T : Terminal) (e : Entry) : Decidable (e.TakesOneRow T) :=
  inferInstanceAs (Decidable (_ = _))

/-- The entries from the limited offset on, as many as there are rows. -/
def entryWindow (c : Console) (h : Nat) : List Entry :=
  (c.shownEntries.drop (clampScroll c.transcriptScroll c.shownEntries.length h)).take (h - 2)

/-- The transcript pane is a list of the entries from the limited offset on. -/
theorem transcriptRows_eq (hshown : c.shownEntries ≠ []) (h : Nat) :
    c.transcriptRows T h =
      ((T.list (h - 2) (((c.shownEntries.drop
          (clampScroll c.transcriptScroll c.shownEntries.length h)).map Entry.text).take
            (visibleRows h))).map (T.padded 1),
        clampScroll c.transcriptScroll c.shownEntries.length h) := by
  unfold transcriptRows
  rw [if_neg (by simpa using hshown)]
  simp only [List.map_take]

/-- The rows of the transcript pane are those of as many whole entries from the offset on as fit. -/
theorem exists_transcriptRows_eq (hT : T.Lawful) (hshown : c.shownEntries ≠ []) (h : Nat) :
    ∃ k, (c.transcriptRows T h).1 =
        (((c.shownEntries.drop (c.transcriptRows T h).2).take k).map (entryRows T)).flatten ∧
      (c.transcriptRows T h).1.length ≤ h - 2 ∧
      ∀ e, (c.shownEntries.drop (c.transcriptRows T h).2)[k]? = some e →
        h - 2 < (c.transcriptRows T h).1.length + (entryRows T e).length := by
  rw [transcriptRows_eq hshown]
  obtain ⟨k, hrows, hle, hnext⟩ := hT.exists_list_take_eq
    ((c.shownEntries.drop
      (clampScroll c.transcriptScroll c.shownEntries.length h)).map Entry.text)
    (Nat.le_max_left (h - 2) 1)
  refine ⟨k, ?_, by rw [List.length_map]; exact hle, fun e he => ?_⟩
  · rw [visibleRows, hrows, ← List.map_take, List.flatMap_map, List.map_flatMap, List.flatMap_def]
    rfl
  · have hmore := hnext e.text (by rw [List.getElem?_map, he, Option.map_some])
    rw [List.length_map, entryRows, List.length_map]
    exact hmore

/-- Where every entry of the window takes one row, row by row the pane shows the entries from the
offset on. -/
theorem transcriptRows_getElem? (hT : T.Lawful) (hshown : c.shownEntries ≠ [])
    (hone : ∀ e ∈ c.entryWindow h, e.TakesOneRow T) (hi : i < h - 2) :
    (c.transcriptRows T h).1[i]? =
      (c.shownEntries[(c.transcriptRows T h).2 + i]?).map (entryRow T) := by
  have hroom : h - 2 ≤ visibleRows h := Nat.le_max_left _ _
  rw [transcriptRows_eq hshown, List.getElem?_map, hT.list_getElem? _ hi,
    List.getElem?_take_of_lt (by omega), List.getElem?_map, List.getElem?_drop, Option.map_map,
    Option.map_map]
  · rfl
  · intro item hitem
    rw [List.take_take, Nat.min_eq_left hroom, ← List.map_take] at hitem
    obtain ⟨e, he, rfl⟩ := List.mem_map.1 hitem
    have hrows : (entryRows T e).length = 1 := hone e he
    rwa [entryRows, List.length_map] at hrows

/-- The state pane is a paragraph from the offset modulo `2 ^ 16` on. -/
theorem stateRows_getElem? (hT : T.Lawful) (c : Console)
    (hlast : h - 2 + (c.stateRows T h).2 % UInt16.size ≤ T.lastLine) (hi : i < h - 2) :
    (c.stateRows T h).1[i]? =
      (c.stateLines[(c.stateRows T h).2 % UInt16.size + i]?).map T.lineRow :=
  hT.paragraph _ _ _ hlast i hi

/-! ## What is on the screen -/

/-- A row of the screen that holds these rows of the two panes, each between the sides of its pane. -/
def paneRow (T : Terminal) (width : Nat) (left right : Row) : String :=
  rowText (T.sides (T.columns 65 width).1 left ++ T.sides (T.columns 65 width).2 right)

/-- A row of the screen holds a row of each pane. -/
theorem drawOn_rows_getElem? (hT : T.Lawful) (c : Console) (width : Nat) (hi : i < h - 2) :
    (c.drawOn T width (h + 4)).2.rows[i + 1]? =
      some (paneRow T width ((c.transcriptRows T h).1[i]?.getD [])
        ((c.stateRows T h).1[i]?.getD [])) := by
  have hboxes : (List.zipWith (· ++ ·)
      (T.box " Transcript " (T.columns 65 width).1 h (c.transcriptRows T h).1)
      (T.box (" " ++ c.language.name ++ " state ") (T.columns 65 width).2 h
        (c.stateRows T h).1))[i + 1]? =
      some (T.sides (T.columns 65 width).1 ((c.transcriptRows T h).1[i]?.getD []) ++
        T.sides (T.columns 65 width).2 ((c.stateRows T h).1[i]?.getD [])) := by
    rw [List.getElem?_zipWith, hT.box _ _ _ _ i hi, hT.box _ _ _ _ i hi]
  unfold drawOn
  dsimp only
  rw [Nat.add_sub_cancel, List.getElem?_map, List.append_assoc,
    List.getElem?_append_left (List.getElem?_eq_some_iff.1 hboxes).1, hboxes]
  rfl

/-- Row `i` inside the borders of the transcript pane is this row, as far as the pane shows it. -/
def Screen.TranscriptRow (s : Screen) (T : Terminal) (width i : Nat) (cs : Row) : Prop :=
  ∃ right, s.rows[i + 1]? = some (paneRow T width cs right)

/-- Row `i` inside the borders of the state pane is this row, as far as the pane shows it. -/
def Screen.StateRow (s : Screen) (T : Terminal) (width i : Nat) (cs : Row) : Prop :=
  ∃ left, s.rows[i + 1]? = some (paneRow T width left cs)

theorem drawOn_transcriptRow (hT : T.Lawful) (c : Console) (width : Nat) (hi : i < h - 2) :
    (c.drawOn T width (h + 4)).2.TranscriptRow T width i
      ((c.transcriptRows T h).1[i]?.getD []) :=
  ⟨_, c.drawOn_rows_getElem? hT width hi⟩

theorem drawOn_stateRow (hT : T.Lawful) (c : Console) (width : Nat) (hi : i < h - 2) :
    (c.drawOn T width (h + 4)).2.StateRow T width i ((c.stateRows T h).1[i]?.getD []) :=
  ⟨_, c.drawOn_rows_getElem? hT width hi⟩

theorem drawOn_transcriptScroll (T : Terminal) (c : Console) (width h : Nat) :
    (c.drawOn T width (h + 4)).1.transcriptScroll = (c.transcriptRows T h).2 := rfl

theorem drawOn_stateScroll (T : Terminal) (c : Console) (width h : Nat) :
    (c.drawOn T width (h + 4)).1.stateScroll = (c.stateRows T h).2 := rfl

/-! ## Windows -/

/-- What the transcript pane shows of its entries when the console is drawn with panes of height `h`,
borders included. -/
structure TranscriptWindow (T : Terminal) (c : Console) (width h : Nat) : Prop where
  /-- The offset that drawing stores is limited by the last window. -/
  offset : (c.drawOn T width (h + 4)).1.transcriptScroll =
    min c.transcriptScroll (c.shownEntries.length - max (h - 2) 1)
  /-- The rows are those of the entries from the stored offset on, of as many as fit. -/
  rows : ∃ k, ∃ rows : List Row,
    rows = (((c.shownEntries.drop (c.drawOn T width (h + 4)).1.transcriptScroll).take k).map
      (entryRows T)).flatten ∧ rows.length ≤ h - 2 ∧
    (∀ e, (c.shownEntries.drop (c.drawOn T width (h + 4)).1.transcriptScroll)[k]? = some e →
      h - 2 < rows.length + (entryRows T e).length) ∧
    ∀ i < h - 2, (c.drawOn T width (h + 4)).2.TranscriptRow T width i (rows[i]?.getD [])
  /-- Where each entry of the window takes one row, row `i` is the entry `i` places after the stored
  offset, and empty if there is none. -/
  entries : (∀ e ∈ c.entryWindow h, e.TakesOneRow T) → ∀ i < h - 2,
    (c.drawOn T width (h + 4)).2.TranscriptRow T width i
      ((c.shownEntries[(c.drawOn T width (h + 4)).1.transcriptScroll + i]?.map
        (entryRow T)).getD [])
  /-- From the greatest offset the last entry is shown. -/
  last : 3 ≤ h → c.shownEntries.length ≤ maxOffset → ∀ e, c.shownEntries.getLast? = some e →
    (∀ e' ∈ { c with transcriptScroll := maxOffset }.entryWindow h, e'.TakesOneRow T) →
    ∃ i < h - 2, ({ c with transcriptScroll := maxOffset }.drawOn T width
      (h + 4)).2.TranscriptRow T width i (entryRow T e)
  /-- Every entry is shown from the offset that is its place. -/
  every : 3 ≤ h → ∀ j e, c.shownEntries[j]? = some e →
    (∀ e' ∈ { c with transcriptScroll := j }.entryWindow h, e'.TakesOneRow T) →
    ∃ i < h - 2, ({ c with transcriptScroll := j }.drawOn T width (h + 4)).2.TranscriptRow T width i
      (entryRow T e)

/-- What the state pane shows of its lines when the console is drawn with panes of height `h`, borders
included. -/
structure StateWindow (T : Terminal) (c : Console) (width h : Nat) : Prop where
  /-- The offset that drawing stores is limited by the last window. -/
  offset : (c.drawOn T width (h + 4)).1.stateScroll =
    min c.stateScroll (c.stateLines.length - max (h - 2) 1)
  /-- Row `i` is the line `i` places after the stored offset modulo `2 ^ 16`. -/
  rows : h - 2 + (c.drawOn T width (h + 4)).1.stateScroll % UInt16.size ≤ T.lastLine →
    ∀ i < h - 2, (c.drawOn T width (h + 4)).2.StateRow T width i
      ((c.stateLines[(c.drawOn T width (h + 4)).1.stateScroll % UInt16.size + i]?.map
        T.lineRow).getD [])
  /-- If the pane can be drawn from the stored offset on, row `i` is the line `i` places after it, and
  empty if there is none. -/
  lines : T.Draws (h - 2) (c.drawOn T width (h + 4)).1.stateScroll → ∀ i < h - 2,
    (c.drawOn T width (h + 4)).2.StateRow T width i
      ((c.stateLines[(c.drawOn T width (h + 4)).1.stateScroll + i]?.map T.lineRow).getD [])
  /-- From the greatest offset the last line is shown, if the last window can be drawn. -/
  last : 3 ≤ h → T.Draws (h - 2) (c.stateLines.length - (h - 2)) →
    ∀ line, c.stateLines.getLast? = some line →
    ∃ i < h - 2, ({ c with stateScroll := maxOffset }.drawOn T width (h + 4)).2.StateRow T width i
      (T.lineRow line)
  /-- Every line in a window that can be drawn is shown from some offset. -/
  every : 3 ≤ h → ∀ n, T.Draws (h - 2) n → ∀ j line, c.stateLines[j]? = some line →
    j < n + (h - 2) →
    ∃ offset ≤ maxOffset, ∃ i < h - 2,
      ({ c with stateScroll := offset }.drawOn T width (h + 4)).2.StateRow T width i
        (T.lineRow line)

theorem transcriptRows_offset (T : Terminal) (hshown : c.shownEntries ≠ []) (h : Nat) :
    (c.transcriptRows T h).2 = clampScroll c.transcriptScroll c.shownEntries.length h := by
  rw [transcriptRows_eq hshown]

/-- From the offset `n`, an entry `i` places after the limited offset is in row `i`. -/
theorem drawOn_entryRow (hT : T.Lawful) (width n : Nat)
    (hone : ∀ e ∈ { c with transcriptScroll := n }.entryWindow h, e.TakesOneRow T) (hi : i < h - 2)
    (he : c.shownEntries[clampScroll n c.shownEntries.length h + i]? = some e) :
    ({ c with transcriptScroll := n }.drawOn T width (h + 4)).2.TranscriptRow T width i
      (entryRow T e) := by
  have hshown : { c with transcriptScroll := n }.shownEntries ≠ [] := fun hnil => by
    change c.shownEntries = [] at hnil
    simp [hnil] at he
  have hrow := { c with transcriptScroll := n }.drawOn_transcriptRow hT width hi
  rw [transcriptRows_getElem? hT hshown hone hi, transcriptRows_offset T hshown] at hrow
  change Screen.TranscriptRow _ T width i
    ((c.shownEntries[clampScroll n c.shownEntries.length h + i]?.map (entryRow T)).getD []) at hrow
  rwa [he] at hrow

/-- From the offset `n`, a line `i` places after the limited offset is in row `i`, if the pane can be
drawn from the limited offset on. -/
theorem drawOn_lineRow (hT : T.Lawful) (width n : Nat)
    (hdraws : T.Draws (h - 2) (clampScroll n c.stateLines.length h)) (hi : i < h - 2)
    {line : String}
    (hline : c.stateLines[clampScroll n c.stateLines.length h + i]? = some line) :
    ({ c with stateScroll := n }.drawOn T width (h + 4)).2.StateRow T width i
      (T.lineRow line) := by
  have hoffset : ({ c with stateScroll := n }.stateRows T h).2 % UInt16.size =
      clampScroll n c.stateLines.length h := Nat.mod_eq_of_lt hdraws.1
  have hrow := { c with stateScroll := n }.drawOn_stateRow hT width hi
  rw [stateRows_getElem? hT _ (by rw [hoffset]; exact hdraws.2) hi, hoffset] at hrow
  change Screen.StateRow _ T width i
    ((c.stateLines[clampScroll n c.stateLines.length h + i]?.map T.lineRow).getD []) at hrow
  rwa [hline] at hrow

/-- The transcript pane is a window on the entries. -/
theorem transcriptWindow (hT : T.Lawful) (hshown : c.shownEntries ≠ []) (width h : Nat) :
    c.TranscriptWindow T width h where
  offset := by
    rw [drawOn_transcriptScroll, transcriptRows_offset T hshown, clampScroll, visibleRows]
  rows := by
    obtain ⟨k, heq, hle, hnext⟩ := exists_transcriptRows_eq hT hshown h
    exact ⟨k, _, heq, hle, hnext, fun _ hi => c.drawOn_transcriptRow hT width hi⟩
  entries hone i hi := by
    rw [drawOn_transcriptScroll, ← transcriptRows_getElem? hT hshown hone hi]
    exact c.drawOn_transcriptRow hT width hi
  last hh htotal e he hone := by
    obtain ⟨i, hi, hlast⟩ := clampScroll_reaches_end (List.length_pos_iff.2 hshown) hh
      (Nat.le_trans (Nat.sub_le _ _) htotal)
    refine ⟨i, hi, drawOn_entryRow hT width maxOffset hone hi ?_⟩
    rw [hlast, ← List.getLast?_eq_getElem?, he]
  every hh j e he hone := by
    obtain ⟨hj, -⟩ := List.getElem?_eq_some_iff.1 he
    obtain ⟨i, hi, hplace⟩ := clampScroll_reaches hj (Nat.le_refl j) (h := h) (by omega)
    refine ⟨i, hi, drawOn_entryRow hT width j hone hi ?_⟩
    rw [hplace, he]

/-- The state pane is a window on the lines. -/
theorem stateWindow (hT : T.Lawful) (c : Console) (width h : Nat) : c.StateWindow T width h where
  offset := rfl
  rows hlast i hi := by
    rw [drawOn_stateScroll] at hlast ⊢
    rw [← stateRows_getElem? hT c hlast hi]
    exact c.drawOn_stateRow hT width hi
  lines hdraws i hi := by
    rw [drawOn_stateScroll] at hdraws ⊢
    have hoffset := Nat.mod_eq_of_lt hdraws.1
    have hrow := c.drawOn_stateRow hT width hi
    rwa [stateRows_getElem? hT c (by rw [hoffset]; exact hdraws.2) hi, hoffset] at hrow
  last hh hdraws line hline := by
    have hpositive : 0 < c.stateLines.length :=
      List.length_pos_iff.2 fun hnil => by simp [hnil] at hline
    have hmax : UInt16.size ≤ maxOffset := by decide
    obtain ⟨i, hi, hlast⟩ := clampScroll_reaches_end hpositive hh
      (Nat.le_trans (Nat.le_of_lt hdraws.1) hmax)
    refine ⟨i, hi, drawOn_lineRow hT width maxOffset ?_ hi ?_⟩
    · exact hdraws.of_le (clampScroll_le_sub hh _ _)
    · rw [hlast, ← List.getLast?_eq_getElem?, hline]
  every hh n hdraws j line hline hj := by
    obtain ⟨hlt, -⟩ := List.getElem?_eq_some_iff.1 hline
    have hmax : UInt16.size ≤ maxOffset := by decide
    have hn : min j n ≤ maxOffset := by
      have := hdraws.1
      omega
    obtain ⟨i, hi, hplace⟩ := clampScroll_reaches (h := h) hlt (Nat.min_le_left j n) (by omega)
    refine ⟨_, hn, i, hi, drawOn_lineRow hT width _ ?_ hi ?_⟩
    · exact hdraws.of_le (Nat.le_trans (clampScroll_le _ _ _) (Nat.min_le_right j n))
    · rw [hplace, hline]

/-- On every lawful terminal, and the standard one is such a terminal, both panes are windows on what
there is to show. -/
theorem scroll_windows_exact (c : Console) (width h : Nat) :
    Terminal.standard.Lawful ∧
    ∀ T : Terminal, T.Lawful →
      (c.shownEntries ≠ [] → c.TranscriptWindow T width h) ∧ c.StateWindow T width h :=
  ⟨Terminal.standard_lawful, fun _ hT =>
    ⟨fun hshown => transcriptWindow hT hshown width h, stateWindow hT c width h⟩⟩

/-- A console with this stack and this transcript, scrolled to these offsets. -/
def scrolled (stack : Machine.Operands) (transcript : List Entry)
    (transcriptScroll stateScroll : Nat) : Console :=
  { session := { machine := { stack }, reasoner := {} }
    language := .forth
    transcript, transcriptScroll, stateScroll }

theorem definitions_new : Machine.Dictionary.definitions {} = [] := by
  show ([] : List (String × List Machine.Token)).mergeSort _ = []
  exact List.mergeSort_nil

/-- Two rows of three entries and of the seven lines about a stack of three, from the end. -/
theorem scroll_windows_exact_end :
    let c := scrolled [.int 3, .int 2, .int 1]
      [⟨.input, .forth, "forth> 1 2 3"⟩, ⟨.output, .forth, "a"⟩, ⟨.output, .forth, "b"⟩]
      maxOffset maxOffset
    ((c.draw 60 8).1.transcriptScroll = 1 ∧
      (c.draw 60 8).2.TranscriptRow .standard 60 0 " a".toList ∧
      (c.draw 60 8).2.TranscriptRow .standard 60 1 " b".toList ∧
      (∃ i < 2, ({ c with transcriptScroll := maxOffset }.draw 60 8).2.TranscriptRow .standard 60 i
        " b".toList) ∧
      ∃ i < 2, ({ c with transcriptScroll := 0 }.draw 60 8).2.TranscriptRow .standard 60 i
        " forth> 1 2 3".toList) ∧
    ((c.draw 60 8).1.stateScroll = 5 ∧
      (c.draw 60 8).2.StateRow .standard 60 0 "User words".toList ∧
      (c.draw 60 8).2.StateRow .standard 60 1 "  (none)".toList ∧
      (∃ i < 2, ({ c with stateScroll := maxOffset }.draw 60 8).2.StateRow .standard 60 i
        "  (none)".toList) ∧
      ∃ offset ≤ maxOffset, ∃ i < 2,
        ({ c with stateScroll := offset }.draw 60 8).2.StateRow .standard 60 i
          "Stack <3>".toList) := by
  intro c
  obtain ⟨hlawful, hwindows⟩ := scroll_windows_exact c 60 4
  obtain ⟨htranscript, hstate⟩ := hwindows .standard hlawful
  have hwindow := htranscript (by decide)
  have hentries := hwindow.entries (by decide)
  have hlist : c.stateLines =
      ["Stack <3>", "    0: 3", "    1: 2", "    2: 1", "", "User words", "  (none)"] := by
    show machineLines { stack := _ } = _
    unfold machineLines
    rw [definitions_new]
    decide
  have hoffset : (c.drawOn .standard 60 8).1.stateScroll = 5 := by
    have hstored := hstate.offset
    rw [hlist] at hstored
    exact hstored
  have hlines := hstate.lines (by rw [hoffset]; decide)
  rw [hoffset, hlist] at hlines
  refine ⟨⟨hwindow.offset, hentries 0 (by decide), hentries 1 (by decide), ?_, ?_⟩,
    hoffset, hlines 0 (by decide), hlines 1 (by decide), ?_, ?_⟩
  · exact hwindow.last (by decide) (by decide) ⟨.output, .forth, "b"⟩ (by decide) (by decide)
  · exact hwindow.every (by decide) 0 ⟨.input, .forth, "forth> 1 2 3"⟩ (by decide) (by decide)
  · exact hstate.last (by decide) (by rw [hlist]; decide) "  (none)" (by rw [hlist]; decide)
  · exact hstate.every (by decide) 0 (by decide) 0 "Stack <3>" (by rw [hlist]; decide) (by decide)

/-! ## Where the windows are not exact -/

namespace Terminal

theorem length_fit (width : Nat) (cs : Row) : (fit width cs).length = width := by
  rw [fit, List.length_append, List.length_take, List.length_replicate]
  omega

theorem length_boxRow (width : Nat) (cs : Row) : (boxRow width cs).length = width - 2 + 2 := by
  rw [boxRow, List.length_append, List.length_cons, length_fit]
  rfl

end Terminal

theorem rowText_append_side (cs : Row) : rowText (cs ++ ['│']) = String.ofList (cs ++ ['│']) := by
  rw [rowText, List.reverse_append, List.reverse_singleton, List.singleton_append,
    List.dropWhile_cons_of_neg (by decide), List.reverse_cons, List.reverse_reverse]

/-- On the standard terminal, a row of the screen tells what the rows of the two panes are, up to what
their widths cut. -/
theorem fit_eq_of_paneRow_eq {left right left' right' : Row}
    (hrow : paneRow .standard width left right = paneRow .standard width left' right') :
    Terminal.fit ((Terminal.standard.columns 65 width).1 - 2) left =
        Terminal.fit ((Terminal.standard.columns 65 width).1 - 2) left' ∧
      Terminal.fit ((Terminal.standard.columns 65 width).2 - 2) right =
        Terminal.fit ((Terminal.standard.columns 65 width).2 - 2) right' := by
  change rowText (Terminal.boxRow _ left ++ (_ :: Terminal.fit _ right ++ ['│'])) =
    rowText (Terminal.boxRow _ left' ++ (_ :: Terminal.fit _ right' ++ ['│'])) at hrow
  rw [← List.append_assoc, ← List.append_assoc, rowText_append_side, rowText_append_side,
    String.ofList_inj, List.append_left_inj] at hrow
  obtain ⟨hleft, hright⟩ := List.append_inj hrow (by
    rw [Terminal.length_boxRow, Terminal.length_boxRow])
  unfold Terminal.boxRow at hleft
  rw [List.append_left_inj] at hleft
  exact ⟨(List.cons.inj hleft).2, (List.cons.inj hright).2⟩

/-- What is seen of a row of the transcript pane tells the row, as far as it fits. -/
theorem fit_eq_of_transcriptRow {cs : Row} (hi : i < h - 2)
    (hrow : (c.draw width (h + 4)).2.TranscriptRow .standard width i cs) :
    Terminal.fit ((Terminal.standard.columns 65 width).1 - 2)
        ((c.transcriptRows .standard h).1[i]?.getD []) =
      Terminal.fit ((Terminal.standard.columns 65 width).1 - 2) cs := by
  obtain ⟨right, hright⟩ := hrow
  rw [draw, c.drawOn_rows_getElem? Terminal.standard_lawful width hi, Option.some_inj] at hright
  exact (fit_eq_of_paneRow_eq hright).1

/-- What is seen of a row of the state pane tells the row, as far as it fits. -/
theorem fit_eq_of_stateRow {cs : Row} (hi : i < h - 2)
    (hrow : (c.draw width (h + 4)).2.StateRow .standard width i cs) :
    Terminal.fit ((Terminal.standard.columns 65 width).2 - 2)
        ((c.stateRows .standard h).1[i]?.getD []) =
      Terminal.fit ((Terminal.standard.columns 65 width).2 - 2) cs := by
  obtain ⟨left, hleft⟩ := hrow
  rw [draw, c.drawOn_rows_getElem? Terminal.standard_lawful width hi, Option.some_inj] at hleft
  exact (fit_eq_of_paneRow_eq hleft).2

theorem machineLines_getElem?_succ (m : Machine) {v : Machine.Value} (hv : m.stack[i]? = some v) :
    (machineLines m)[i + 1]? = some ("  " ++ placeNumber i ++ ": " ++ v.quoted) := by
  have hi : i < m.stack.length := (List.getElem?_eq_some_iff.1 hv).1
  have hne : m.stack.isEmpty = false := by
    cases hstack : m.stack with
    | nil => simp [hstack] at hi
    | cons => rfl
  unfold machineLines
  simp only [hne, Bool.false_eq_true, if_false, List.cons_append, List.append_assoc, List.nil_append,
    List.getElem?_cons_succ]
  rw [List.getElem?_append_left (by simpa using hi), List.getElem?_map, List.getElem?_zipIdx, hv]
  simp

/-- Every operand has a line, and three lines are always there. -/
theorem length_stack_add_le (m : Machine) : m.stack.length + 3 ≤ (machineLines m).length := by
  unfold machineLines
  simp
  omega

/-- From an offset beyond `2 ^ 16` other lines are shown than those from the stored offset on, and an
entry of two rows takes the room of the last entry. -/
theorem scroll_windows_inexact :
    let deep := scrolled (List.replicate 70000 (.int 1)) [] 0 65540
    let broken := scrolled [] [⟨.output, .prolog, "a\nb"⟩, ⟨.output, .prolog, "true."⟩] maxOffset 0
    ((deep.draw 60 8).1.stateScroll = 65540 ∧ deep.stateLines[65540]? = some "  65539: 1" ∧
      ¬ (deep.draw 60 8).2.StateRow .standard 60 0 "  65539: 1".toList) ∧
    (broken.shownEntries.getLast? = some ⟨.output, .prolog, "true."⟩ ∧
      ∀ i < 2, ¬ (broken.draw 60 8).2.TranscriptRow .standard 60 i " true.".toList) := by
  intro deep broken
  refine ⟨?_, by decide, fun i hi hrow => ?_⟩
  · have hline : ∀ n < 70000, deep.stateLines[n + 1]? =
        some ("  " ++ placeNumber n ++ ": " ++ (Machine.Value.int 1).quoted) := fun n hn =>
      machineLines_getElem?_succ _ (List.getElem?_replicate_of_lt hn)
    have htotal : 70003 ≤ deep.stateLines.length := by
      have hstack := length_stack_add_le deep.session.machine
      rwa [show deep.session.machine.stack.length = 70000 from List.length_replicate] at hstack
    have hstored : (deep.stateRows .standard 4).2 = 65540 := by
      change min 65540 (deep.stateLines.length - 2) = 65540
      omega
    refine ⟨hstored, hline 65539 (by decide), fun hrow => ?_⟩
    have hfit := fit_eq_of_stateRow (h := 4) (by decide) hrow
    rw [stateRows_getElem? Terminal.standard_lawful deep (by rw [hstored]; decide) (by decide),
      hstored, show 65540 % UInt16.size + 0 = 3 + 1 from rfl, hline 3 (by decide)] at hfit
    exact absurd hfit (by decide)
  · have hfit := fit_eq_of_transcriptRow (h := 4) hi hrow
    clear hrow
    revert i
    decide

end StackLogic.Console
