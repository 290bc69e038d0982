/-
What the screen shows.  A text without erasures is laid out in rows, and the
screen shows the last of them, however often it wrapped and scrolled.
-/
import PsychOS.Lib.TextRows
import PsychOS.TerminalScreen

namespace PsychOS

namespace IdealTerminal

def OnScreen (term : IdealTerminal) : Prop :=
  term.cursor.1 < terminalColumns ∧ term.cursor.2 < terminalRows

/-- Several characters, one after the other. -/
def write (term : IdealTerminal) (bytes : List UInt8) : IdealTerminal :=
  bytes.foldl putc term

theorem clear_onScreen (term : IdealTerminal) : term.clear.OnScreen :=
  ⟨Nat.zero_lt_succ 79, Nat.zero_lt_succ 24⟩

theorem lineFeed_onScreen (term : IdealTerminal) (y : Nat) :
    (term.lineFeed y).OnScreen := by
  unfold lineFeed
  split
  · exact ⟨Nat.zero_lt_succ 79, Nat.lt_succ_self 24⟩
  · exact ⟨Nat.zero_lt_succ 79, Nat.lt_of_not_le ‹_›⟩

theorem putc_onScreen {term : IdealTerminal} (hon : term.OnScreen)
    (ch : UInt8) : (term.putc ch).OnScreen := by
  unfold putc
  split
  · exact stepBack_lt hon.1 hon.2
  · split
    · exact lineFeed_onScreen term _
    · split
      · exact hon
      · split
        · exact lineFeed_onScreen _ _
        · exact ⟨Nat.lt_of_not_le ‹_›, hon.2⟩

theorem write_onScreen {term : IdealTerminal} (hon : term.OnScreen)
    (bytes : List UInt8) : (term.write bytes).OnScreen := by
  induction bytes generalizing term with
  | nil => exact hon
  | cons ch rest ih => exact ih (putc_onScreen hon ch)

end IdealTerminal

/-- Characters that are no erasures are printed as on the ideal terminal. -/
theorem view_terminalWrite {tty : Tty} {terminal : Nat} {bytes : List UInt8}
    (hon : (tty.view terminal).OnScreen) (hback : charBackspace ∉ bytes) :
    (terminalWrite tty terminal bytes).view terminal =
      (tty.view terminal).write bytes := by
  induction bytes generalizing tty with
  | nil => rfl
  | cons ch rest ih =>
      have hput := @view_putcInternal tty terminal hon.1 hon.2 ch
        (fun hch => absurd (hch ▸ List.mem_cons_self) hback)
      have hrest := @ih (putcInternal tty terminal ch)
        (hput ▸ IdealTerminal.putc_onScreen hon ch)
        (fun hmem => hback (List.mem_cons_of_mem ch hmem))
      rw [hput] at hrest
      exact hrest

/-- A text in rows, as wide as the screen. -/
def screenRows (text : List UInt8) : TextRows UInt8 terminalColumns :=
  text.foldl (TextRows.put (· == charNewline)) (TextRows.empty (by decide))

/-- The word that shows a character, or the lack of one. -/
def shownWord (ch : Option UInt8) : UInt16 := ch.elim blankWord videoWord

/-- The screen shows the last of the rows. -/
def ShowsRows (cells : Memory UInt16) (rows : List (List UInt8)) : Prop :=
  ∀ y < terminalRows, ∀ x < terminalColumns,
    cells (y * terminalColumns + x) =
      shownWord (TextRows.cell terminalRows rows y x)

/-- The cursor is behind the last character of the row in progress. -/
structure ShowsText (term : IdealTerminal)
    (rows : TextRows UInt8 terminalColumns) : Prop where
  cells : ShowsRows term.cells rows.all
  cursor : term.cursor =
    (rows.current.length, min rows.all.length terminalRows - 1)

section Steps

variable {term : IdealTerminal} {rows : List (List UInt8)} {row : List UInt8}

theorem cell_index_inj {x y x' y' : Nat} (hx : x < terminalColumns)
    (hx' : x' < terminalColumns) :
    y * terminalColumns + x = y' * terminalColumns + x' ↔ y = y' ∧ x = x' := by
  simp only [terminalColumns] at *
  omega

/-- A character drawn behind the last row. -/
theorem showsRows_draw (hshows : ShowsRows term.cells (rows ++ [row]))
    (hrow : row.length < terminalColumns) (ch : UInt8) :
    ShowsRows (term.draw row.length (min (rows.length + 1) terminalRows - 1)
      ch).cells (rows ++ [row ++ [ch]]) := by
  intro y hy x hx
  rw [TextRows.cell_extend (by decide) rows row ch hy]
  simp only [IdealTerminal.draw, Memory.store, cell_index_inj hx hrow]
  split
  · rfl
  · exact hshows y hy x hx

/-- A new row below the last one. -/
theorem showsRows_lineFeed (hshows : ShowsRows term.cells (rows ++ [row])) :
    ShowsRows (term.lineFeed (min (rows.length + 1) terminalRows - 1)).cells
      (rows ++ [row] ++ [[]]) := by
  have hlength : (rows ++ [row]).length = rows.length + 1 := by simp
  unfold IdealTerminal.lineFeed
  split
  · -- the window is full and moves on by one row
    rename_i hbottom
    have hfull : terminalRows ≤ (rows ++ [row]).length := by
      rw [hlength]
      simp only [terminalRows] at *
      omega
    intro y hy x hx
    rw [TextRows.cell_concat_nil_of_ge hfull]
    simp only [IdealTerminal.scroll, terminalColumns, terminalRows,
      screenCells] at *
    by_cases hlast : y + 1 < 25
    · rw [if_pos (by omega), ← hshows (y + 1) hlast x hx]
      simp only [terminalColumns]
      congr 1
      omega
    · rw [if_neg (by omega), if_pos (by omega), TextRows.cell_eq, hlength,
        List.getElem?_eq_none (by simp; omega)]
      rfl
  · rename_i hroom
    have hlt : (rows ++ [row]).length < terminalRows := by
      rw [hlength]
      simp only [terminalRows] at *
      omega
    intro y hy x hx
    rw [TextRows.cell_concat_nil_of_lt hlt]
    exact hshows y hy x hx

theorem lineFeed_cursor (term : IdealTerminal) (count : Nat) :
    (term.lineFeed (min (count + 1) terminalRows - 1)).cursor =
      (0, min (count + 2) terminalRows - 1) := by
  unfold IdealTerminal.lineFeed
  simp only [terminalRows]
  split
  · rw [Prod.mk.injEq]
    omega
  · rw [Prod.mk.injEq]
    omega

end Steps

/-- One more character on the screen is one more character of the text. -/
theorem ShowsText.put {term : IdealTerminal}
    {rows : TextRows UInt8 terminalColumns} (hshows : ShowsText term rows)
    {ch : UInt8} (hback : ch ≠ charBackspace) (htab : ch ≠ charTab) :
    ShowsText (term.putc ch) (rows.put (· == charNewline) ch) := by
  obtain ⟨hcells, hcursor⟩ := hshows
  rw [TextRows.all_length] at hcursor
  simp only [IdealTerminal.putc, hback, htab, hcursor, ↓reduceIte,
    TextRows.put, beq_iff_eq]
  by_cases hnl : ch = charNewline
  · simp only [hnl, ↓reduceIte]
    refine ⟨?_, ?_⟩
    · rw [TextRows.all_endRow, List.append_nil]
      exact showsRows_lineFeed hcells
    · rw [lineFeed_cursor, TextRows.all_length]
      simp [TextRows.endRow]
  · simp only [hnl, ↓reduceIte]
    have hdraw := showsRows_draw hcells rows.current_lt ch
    by_cases hroom : rows.current.length + 1 < terminalColumns
    · have hfits : ¬ rows.current.length + 1 ≥ terminalColumns := by omega
      simp only [hroom, hfits, ↓reduceIte, ↓reduceDIte]
      refine ⟨hdraw, ?_⟩
      rw [TextRows.all_length, List.length_append, List.length_singleton]
    · have hend : rows.current.length + 1 ≥ terminalColumns := by omega
      simp only [hroom, hend, ↓reduceIte, ↓reduceDIte]
      refine ⟨?_, ?_⟩
      · rw [TextRows.all_endRow]
        exact showsRows_lineFeed hdraw
      · rw [lineFeed_cursor, TextRows.all_length]
        simp [TextRows.endRow]

/-- A text after a text. -/
theorem ShowsText.write {term : IdealTerminal}
    {rows : TextRows UInt8 terminalColumns} (hshows : ShowsText term rows)
    {text : List UInt8} (hback : charBackspace ∉ text)
    (htab : charTab ∉ text) :
    ShowsText (term.write text)
      (text.foldl (TextRows.put (· == charNewline)) rows) := by
  induction text generalizing term rows with
  | nil => exact hshows
  | cons ch rest ih =>
      rw [List.mem_cons, not_or] at hback htab
      exact ih (hshows.put (Ne.symm hback.1) (Ne.symm htab.1)) hback.2 htab.2

theorem showsText_clear (term : IdealTerminal) :
    ShowsText term.clear (screenRows []) where
  cells := by
    intro y hy x hx
    have hnone : TextRows.cell terminalRows (screenRows []).all y x = none := by
      cases y with
      | zero => rfl
      | succ y => rfl
    rw [hnone]
    exact if_pos (cell_lt hx hy)
  cursor := rfl

/-- After a clear and any text without erasures and tabs, the screen shows the
last rows of the text, and the cursor is at its end. -/
theorem screen_shows_text (tty : Tty) (terminal : Nat) {text : List UInt8}
    (hback : charBackspace ∉ text) (htab : charTab ∉ text) :
    let after := terminalWrite (clearTerminal tty terminal) terminal text
    let rows := screenRows text
    (∀ y < terminalRows, ∀ x < terminalColumns,
      after.vram (cellAddr after terminal (y * terminalColumns + x)) =
        shownWord (TextRows.cell terminalRows rows.all y x)) ∧
    after.cursorLocation terminal =
      (rows.current.length, min rows.all.length terminalRows - 1) := by
  intro after rows
  have hclear := view_clearTerminal tty terminal
  have hview : after.view terminal =
      (tty.view terminal).clear.write text := by
    rw [← hclear]
    apply view_terminalWrite _ hback
    rw [hclear]
    exact IdealTerminal.clear_onScreen _
  have hshows : ShowsText (after.view terminal) rows := by
    rw [hview]
    exact (showsText_clear _).write hback htab
  refine ⟨?_, hshows.cursor⟩
  intro y hy x hx
  rw [← hshows.cells y hy x hx]
  exact (if_pos (cell_lt hx hy)).symm

/-- Two lines on a zero-filled driver. -/
theorem screen_shows_two_lines :
    let after := terminalWrite (clearTerminal Tty.zeroed 1) 1
      [104, 105, charNewline, 33]
    after.vram 81 = blankWord ∧ after.vram 80 = videoWord 33 ∧
      after.cursorLocation 1 = (1, 1) := by
  have hshows := @screen_shows_text Tty.zeroed 1 [104, 105, charNewline, 33]
    (by decide) (by decide)
  exact ⟨hshows.1 1 (by decide) 1 (by decide),
    hshows.1 1 (by decide) 0 (by decide), hshows.2⟩

end PsychOS
