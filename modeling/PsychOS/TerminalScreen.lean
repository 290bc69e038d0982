/-
Three ideal terminals.  Each terminal on its own is a screen of 2000 cells, a
cursor, a queue of typed bytes and a counter.  The driver keeps the three
screens in one video memory and two background buffers; this module shows that
every operation of the driver acts on exactly one ideal terminal, the way that
terminal would act alone.
-/
import PsychOS.TerminalInput

namespace PsychOS

abbrev screenCells : Nat := terminalColumns * terminalRows

/-- A terminal by itself. -/
structure IdealTerminal where
  cells : Memory UInt16
  cursor : Nat × Nat
  pending : List UInt8
  newLineReady : Nat

namespace IdealTerminal

def draw (term : IdealTerminal) (x y : Nat) (ch : UInt8) : IdealTerminal :=
  { term with
    cells := term.cells.store (y * terminalColumns + x) (videoWord ch) }

/-- Every row moves up by one and the last becomes blank. -/
def scroll (term : IdealTerminal) : IdealTerminal :=
  { term with
    cells := fun i =>
      if i < terminalColumns * (terminalRows - 1) then
        term.cells (i + terminalColumns)
      else if i < screenCells then blankWord else 0 }

/-- Go to the start of the row below `y`, scrolling at the bottom. -/
def lineFeed (term : IdealTerminal) (y : Nat) : IdealTerminal :=
  if y + 1 ≥ terminalRows then
    { term.scroll with cursor := (0, terminalRows - 1) }
  else { term with cursor := (0, y + 1) }

/-- One cell back, to the end of the row above from the first column. -/
def stepBack (cursor : Nat × Nat) : Nat × Nat :=
  if cursor.1 = 0 then (terminalColumns - 1, cursor.2 - 1)
  else (cursor.1 - 1, cursor.2)

def putc (term : IdealTerminal) (ch : UInt8) : IdealTerminal :=
  if ch = charBackspace then
    { term.draw (stepBack term.cursor).1 (stepBack term.cursor).2 charSpace
      with cursor := stepBack term.cursor }
  else if ch = charNewline then term.lineFeed term.cursor.2
  else if ch = charTab then term
  else if term.cursor.1 + 1 ≥ terminalColumns then
    (term.draw term.cursor.1 term.cursor.2 ch).lineFeed term.cursor.2
  else
    { term.draw term.cursor.1 term.cursor.2 ch with
      cursor := (term.cursor.1 + 1, term.cursor.2) }

def putcTimes (term : IdealTerminal) (ch : UInt8) : Nat → IdealTerminal
  | 0 => term
  | count + 1 => (term.putc ch).putcTimes ch count

def clear (term : IdealTerminal) : IdealTerminal :=
  { term with
    cells := fun i => if i < screenCells then blankWord else 0
    cursor := (0, 0) }

def reset (term : IdealTerminal) : IdealTerminal :=
  { term.clear with pending := [], newLineReady := 0 }

/-- How many cells a backspace over `last` erases. -/
def eraseCount (term : IdealTerminal) (last : UInt8) : Nat :=
  if last = charTab then tabEraseCount term.cursor.1 else 1

def key (term : IdealTerminal) (ch : UInt8) : IdealTerminal :=
  match keyEffect term.pending ch with
  | none => term
  | some pending =>
      if ch = charBackspace then
        { term with pending := pending }.putcTimes charBackspace
          (term.eraseCount (term.pending.getLast?.getD 0))
      else if ch = charNewline then
        { { term with pending := pending }.putc charNewline with
          newLineReady := (term.newLineReady + 1) % 256 }
      else if ch = charTab then
        { term with pending := pending }.putcTimes charSpace
          (tabSpaceCount term.cursor.1)
      else if ch = 0 then term
      else { term with pending := pending }.putc ch

def read (term : IdealTerminal) (nbytes : Int) : Option IdealTerminal :=
  if term.newLineReady = 0 then none
  else some { term with
    pending := term.pending.drop
      (min (lineLength term.pending) (toUint32 nbytes))
    newLineReady := (term.newLineReady + 255) % 256 }

end IdealTerminal

/-- The word address of the first cell of a terminal's screen: video memory
for the active terminal, the background buffer for the others. -/
def screenBase (layout : Layout) (tty : Tty) (terminal : Nat) : Nat :=
  getTerminalOutputBuffer layout tty terminal / 2

/-- The ideal terminal a terminal of the driver stands for. -/
def Tty.ideal (layout : Layout) (tty : Tty) (terminal : Nat) :
    IdealTerminal where
  cells := fun i =>
    if i < screenCells then tty.vram (screenBase layout tty terminal + i)
    else 0
  cursor := tty.cursorLocation terminal
  pending := tty.pending terminal
  newLineReady := tty.newLineReady terminal

/-- The same through the pointer the driver draws with, wherever it points. -/
def Tty.view (tty : Tty) (terminal : Nat) : IdealTerminal where
  cells := fun i =>
    if i < screenCells then tty.vram (cellAddr tty terminal i) else 0
  cursor := tty.cursorLocation terminal
  pending := tty.pending terminal
  newLineReady := tty.newLineReady terminal

/-- The invariant of the driver between operations. -/
structure Tty.Good (layout : Layout) (tty : Tty) : Prop where
  active_lt : tty.activeTerminal < numTerminals
  videoMemory_eq : ∀ t < numTerminals,
    tty.videoMemory t = getTerminalOutputBuffer layout tty t
  cursor_x : ∀ t < numTerminals, (tty.cursorLocation t).1 < terminalColumns
  cursor_y : ∀ t < numTerminals, (tty.cursorLocation t).2 < terminalRows
  hardwareCursor_eq : tty.hardwareCursor =
    videoIndex (tty.cursorLocation tty.activeTerminal).1
      (tty.cursorLocation tty.activeTerminal).2
  ready : ∀ t < numTerminals, tty.InputReady layout t

/-- The operation took the terminal to `term` and left the others alone. -/
structure Refines (layout : Layout) (tty : Tty) (terminal : Nat) (next : Tty)
    (term : IdealTerminal) : Prop where
  good : next.Good layout
  ideal_eq : next.ideal layout terminal = term
  others : ∀ t < numTerminals, t ≠ terminal →
    next.ideal layout t = tty.ideal layout t

theorem Refines.trans {layout : Layout} {tty middle next : Tty}
    {terminal : Nat} {first second : IdealTerminal}
    (hfirst : Refines layout tty terminal middle first)
    (hsecond : Refines layout middle terminal next second) :
    Refines layout tty terminal next second where
  good := hsecond.good
  ideal_eq := hsecond.ideal_eq
  others := fun t ht hne =>
    (hsecond.others t ht hne).trans (hfirst.others t ht hne)

section Addresses

variable (layout : Layout) (tty : Tty)

/-- The 4KB pages of two different terminals never overlap. -/
theorem screenBase_disjoint {t t' : Nat} (ht : t < numTerminals)
    (ht' : t' < numTerminals) (hne : t ≠ t') :
    screenBase layout tty t + 2048 ≤ screenBase layout tty t' ∨
      screenBase layout tty t' + 2048 ≤ screenBase layout tty t := by
  have hge := layout.outputBuffer_ge
  have halign := layout.outputBuffer_aligned
  simp only [numTerminals] at ht ht'
  simp only [screenBase, getTerminalOutputBuffer, Layout.outputBufferOf,
    videoPhysAddr]
  split <;> split <;> omega

theorem videoIndex_eq {x y : Nat} (hx : x < terminalColumns)
    (hy : y < terminalRows) :
    videoIndex x y = y * terminalColumns + x := by
  simp only [terminalColumns, terminalRows] at hx hy
  rw [videoIndex, Nat.mod_eq_of_lt]
  simp only [terminalColumns]
  omega

end Addresses

theorem cell_lt {x y : Nat} (hx : x < terminalColumns)
    (hy : y < terminalRows) : y * terminalColumns + x < screenCells := by
  simp only [screenCells, terminalColumns, terminalRows] at *
  omega

theorem stepBack_lt {cursor : Nat × Nat} (hx : cursor.1 < terminalColumns)
    (hy : cursor.2 < terminalRows) :
    (IdealTerminal.stepBack cursor).1 < terminalColumns ∧
      (IdealTerminal.stepBack cursor).2 < terminalRows := by
  simp only [terminalColumns, terminalRows] at *
  unfold IdealTerminal.stepBack
  split <;> simp only [terminalColumns] <;> omega

section View

variable (tty : Tty) (terminal : Nat)

theorem view_setHardwareCursor (x y : Nat) :
    (setHardwareCursor tty terminal x y).view terminal =
      { tty.view terminal with cursor := (x, y) } := by
  have hcursor : (setHardwareCursor tty terminal x y).cursorLocation
      terminal = (x, y) := Function.update_self _ _ _
  rw [← hcursor]
  rfl

/-- New contents for the screen. -/
theorem view_vram {vram cells : Memory UInt16}
    (hcells : ∀ i, (if i < screenCells then vram (cellAddr tty terminal i)
      else 0) = cells i) :
    Tty.view { tty with vram := vram } terminal =
      { tty.view terminal with cells := cells } := by
  obtain rfl := funext hcells
  rfl

theorem view_videoBufferPutc {x y : Nat} (hx : x < terminalColumns)
    (hy : y < terminalRows) (ch : UInt8) :
    (videoBufferPutc tty terminal x y ch).view terminal =
      (tty.view terminal).draw x y ch := by
  have hlt := cell_lt hx hy
  apply view_vram
  intro i
  simp only [Tty.view, cellAddr, videoIndex_eq hx hy, Memory.store,
    Nat.add_left_cancel_iff]
  by_cases hi : i < screenCells
  · simp only [hi, ↓reduceIte]
  · have hne : i ≠ y * terminalColumns + x := by omega
    simp only [hi, hne, ↓reduceIte]

theorem view_scrollScreen :
    (scrollScreen tty terminal).view terminal =
      (tty.view terminal).scroll := by
  apply view_vram
  intro i
  simp only [Tty.view, cellAddr, videoIndex, screenCells, terminalColumns,
    terminalRows]
  rw [Memory.fill_apply, Memory.copyUp_apply _ (Or.inl (by omega))]
  by_cases hmoved : i < 1920
  · rw [if_pos (by omega), if_neg (by omega), if_pos (by omega),
      if_pos (by omega), if_pos (by omega)]
    congr 1
    omega
  · by_cases hi : i < 2000
    · rw [if_pos (by omega), if_pos (by omega), if_neg (by omega),
        if_pos (by omega)]
    · rw [if_neg (by omega), if_neg (by omega), if_neg (by omega)]

theorem view_clearTerminal :
    (clearTerminal tty terminal).view terminal =
      (tty.view terminal).clear := by
  have hfilled := @view_vram tty terminal
    (tty.vram.fill (cellAddr tty terminal 0) blankWord screenCells)
    (fun i => if i < screenCells then blankWord else 0)
    (by
      intro i
      by_cases hi : i < screenCells
      · rw [if_pos hi, if_pos hi, Memory.fill_apply, if_pos]
        simp only [cellAddr]
        omega
      · rw [if_neg hi, if_neg hi])
  rw [clearTerminal, view_setHardwareCursor, hfilled]
  rfl

/-- A line feed from row `y`, cursor included. -/
theorem view_lineFeed {y : Nat} (hy : y < terminalRows) :
    (setHardwareCursor (lineFeed tty terminal y).1 terminal 0
        (lineFeed tty terminal y).2).view terminal =
      (tty.view terminal).lineFeed y := by
  have hwrap : (y + 1) % 256 = y + 1 := by
    simp only [terminalRows] at hy
    omega
  rw [view_setHardwareCursor]
  simp only [lineFeed, IdealTerminal.lineFeed, hwrap]
  by_cases hbottom : y + 1 ≥ terminalRows
  · simp only [hbottom, ↓reduceIte, view_scrollScreen]
  · simp only [hbottom, ↓reduceIte]

variable {tty terminal}

/-- The byte arithmetic of an erasure, which wraps only at the origin. -/
theorem putcInternal_backspace
    (hy : (tty.cursorLocation terminal).2 < terminalRows)
    (horigin : tty.cursorLocation terminal ≠ (0, 0)) :
    putcInternal tty terminal charBackspace =
      setHardwareCursor (videoBufferPutc tty terminal
        (IdealTerminal.stepBack (tty.cursorLocation terminal)).1
        (IdealTerminal.stepBack (tty.cursorLocation terminal)).2 charSpace)
        terminal (IdealTerminal.stepBack (tty.cursorLocation terminal)).1
        (IdealTerminal.stepBack (tty.cursorLocation terminal)).2 := by
  rcases hcursor : tty.cursorLocation terminal with ⟨x, y⟩
  rw [hcursor] at hy horigin
  simp only [terminalRows] at hy
  simp only [putcInternal, hcursor, ↓reduceIte, IdealTerminal.stepBack]
  by_cases hzero : x = 0
  · have hy0 : y ≠ 0 := by
      intro hy0
      exact horigin (by rw [hzero, hy0])
    have hrow : (y + 255) % 256 = y - 1 := by omega
    simp only [hzero, ↓reduceIte, hrow]
  · simp only [hzero, ↓reduceIte]

/-- `putc_internal` draws as the ideal terminal does. -/
theorem view_putcInternal
    (hx : (tty.cursorLocation terminal).1 < terminalColumns)
    (hy : (tty.cursorLocation terminal).2 < terminalRows) {ch : UInt8}
    (horigin : ch = charBackspace → tty.cursorLocation terminal ≠ (0, 0)) :
    (putcInternal tty terminal ch).view terminal =
      (tty.view terminal).putc ch := by
  have hcursor : (tty.view terminal).cursor = tty.cursorLocation terminal :=
    rfl
  by_cases hback : ch = charBackspace
  · obtain ⟨hbackX, hbackY⟩ := stepBack_lt hx hy
    rw [hback, putcInternal_backspace hy (horigin hback),
      view_setHardwareCursor, view_videoBufferPutc _ _ hbackX hbackY]
    simp only [IdealTerminal.putc, ↓reduceIte, hcursor]
  · simp only [putcInternal, IdealTerminal.putc, hback, ↓reduceIte, hcursor]
    by_cases hnl : ch = charNewline
    · simp only [hnl, ↓reduceIte]
      exact view_lineFeed tty terminal hy
    · by_cases htab : ch = charTab
      · have hne : charTab ≠ charNewline := by decide
        simp only [htab, hne, ↓reduceIte]
        rw [view_setHardwareCursor]
        rfl
      · have hwrap : ((tty.cursorLocation terminal).1 + 1) % 256 =
            (tty.cursorLocation terminal).1 + 1 := by
          simp only [terminalColumns] at hx
          omega
        simp only [hnl, htab, hwrap, ↓reduceIte]
        have hdraw := view_videoBufferPutc tty terminal hx hy ch
        by_cases hend : (tty.cursorLocation terminal).1 + 1 ≥ terminalColumns
        · simp only [hend, ↓reduceIte]
          rw [view_lineFeed _ _ hy, hdraw]
        · simp only [hend, ↓reduceIte]
          rw [view_setHardwareCursor, hdraw]

end View

section Draw

variable {layout : Layout} {tty : Tty} {terminal : Nat}

theorem Tty.Good.cellAddr_eq (hgood : tty.Good layout)
    (ht : terminal < numTerminals) (index : Nat) :
    cellAddr tty terminal index = screenBase layout tty terminal + index := by
  rw [cellAddr, hgood.videoMemory_eq terminal ht, screenBase]

/-- A screen is unchanged where video memory is. -/
theorem ideal_cells_congr {next : Tty} {t : Nat}
    (hactive : next.activeTerminal = tty.activeTerminal)
    (hvram : ∀ i, i < screenCells →
      next.vram (screenBase layout tty t + i) =
        tty.vram (screenBase layout tty t + i)) :
    (next.ideal layout t).cells = (tty.ideal layout t).cells := by
  have hbase : screenBase layout next t = screenBase layout tty t := by
    simp only [screenBase, getTerminalOutputBuffer, hactive]
  funext i
  simp only [Tty.ideal, hbase]
  split
  · exact hvram i (by assumption)
  · rfl

theorem Tty.Good.withVram (hgood : tty.Good layout) (vram : Memory UInt16) :
    Tty.Good layout { tty with vram := vram } :=
  ⟨hgood.active_lt, hgood.videoMemory_eq, hgood.cursor_x, hgood.cursor_y,
    hgood.hardwareCursor_eq, hgood.ready⟩

theorem Tty.Good.view_eq (hgood : tty.Good layout)
    (ht : terminal < numTerminals) :
    tty.view terminal = tty.ideal layout terminal := by
  simp only [Tty.view, Tty.ideal, hgood.cellAddr_eq ht]

/-- New contents for the terminal's own screen. -/
theorem refines_vram (hgood : tty.Good layout) (ht : terminal < numTerminals)
    {vram : Memory UInt16}
    (hframe : ∀ a, (a < screenBase layout tty terminal ∨
      screenBase layout tty terminal + screenCells ≤ a) →
        vram a = tty.vram a) :
    Refines layout tty terminal { tty with vram := vram }
      (Tty.view { tty with vram := vram } terminal) where
  good := hgood.withVram vram
  ideal_eq := ((hgood.withVram vram).view_eq ht).symm
  others := by
    intro t ht' hne
    have hsame : (Tty.ideal layout { tty with vram := vram } t).cells =
        (tty.ideal layout t).cells := by
      apply ideal_cells_congr
      · rfl
      · intro i hi
        have hdisjoint := screenBase_disjoint layout tty ht ht' (Ne.symm hne)
        simp only [screenCells, terminalColumns, terminalRows] at hi
        apply hframe
        simp only [screenCells, terminalColumns, terminalRows]
        omega
    simp only [Tty.ideal] at hsame ⊢
    rw [hsame]
    rfl

theorem setHardwareCursor_good (hgood : tty.Good layout) {x y : Nat}
    (hx : x < terminalColumns) (hy : y < terminalRows) :
    (setHardwareCursor tty terminal x y).Good layout where
  active_lt := hgood.active_lt
  videoMemory_eq := hgood.videoMemory_eq
  cursor_x := by
    intro t ht
    simp only [setHardwareCursor, Function.update_apply]
    split
    · exact hx
    · exact hgood.cursor_x t ht
  cursor_y := by
    intro t ht
    simp only [setHardwareCursor, Function.update_apply]
    split
    · exact hy
    · exact hgood.cursor_y t ht
  hardwareCursor_eq := by
    simp only [setHardwareCursor, Function.update_apply]
    by_cases hactive : terminal = tty.activeTerminal
    · simp [hactive]
    · simp only [hactive, Ne.symm hactive, ↓reduceIte]
      exact hgood.hardwareCursor_eq
  ready := hgood.ready

theorem refines_setHardwareCursor (hgood : tty.Good layout) {x y : Nat}
    (hx : x < terminalColumns) (hy : y < terminalRows) :
    Refines layout tty terminal (setHardwareCursor tty terminal x y)
      { tty.ideal layout terminal with cursor := (x, y) } where
  good := setHardwareCursor_good hgood hx hy
  ideal_eq := by
    have hcursor : (setHardwareCursor tty terminal x y).cursorLocation
        terminal = (x, y) := Function.update_self _ _ _
    rw [← hcursor]
    rfl
  others := by
    intro t ht hne
    have hcursor : (setHardwareCursor tty terminal x y).cursorLocation t =
        tty.cursorLocation t := Function.update_of_ne hne _ _
    simp only [Tty.ideal, hcursor]
    rfl

theorem refines_videoBufferPutc (hgood : tty.Good layout)
    (ht : terminal < numTerminals) {x y : Nat} (hx : x < terminalColumns)
    (hy : y < terminalRows) (ch : UInt8) :
    Refines layout tty terminal (videoBufferPutc tty terminal x y ch)
      ((tty.ideal layout terminal).draw x y ch) := by
  have hlt := cell_lt hx hy
  rw [← hgood.view_eq ht, ← view_videoBufferPutc tty terminal hx hy ch]
  apply refines_vram hgood ht
  intro a ha
  rw [hgood.cellAddr_eq ht, videoIndex_eq hx hy]
  exact Memory.store_of_ne _ _ (by omega)

theorem refines_scrollScreen (hgood : tty.Good layout)
    (ht : terminal < numTerminals) :
    Refines layout tty terminal (scrollScreen tty terminal)
      (tty.ideal layout terminal).scroll := by
  rw [← hgood.view_eq ht, ← view_scrollScreen]
  apply refines_vram hgood ht
  intro a ha
  simp only [hgood.cellAddr_eq ht, videoIndex, screenCells, terminalColumns,
    terminalRows] at ha ⊢
  rw [Memory.fill_apply, if_neg (by omega),
    Memory.copyUp_apply _ (Or.inl (by omega)), if_neg (by omega)]

theorem refines_clearTerminal (hgood : tty.Good layout)
    (ht : terminal < numTerminals) :
    Refines layout tty terminal (clearTerminal tty terminal)
      (tty.ideal layout terminal).clear := by
  have hfilled := @refines_vram layout tty terminal hgood ht
    (tty.vram.fill (cellAddr tty terminal 0) blankWord screenCells)
    (by
      intro a ha
      rw [hgood.cellAddr_eq ht, Memory.fill_apply, if_neg (by omega)])
  have hcursor := @refines_setHardwareCursor layout _ terminal hfilled.good
    0 0 (by decide) (by decide)
  have hclear := hfilled.trans hcursor
  rw [← hfilled.good.view_eq ht, ← view_setHardwareCursor] at hclear
  rw [← hgood.view_eq ht, ← view_clearTerminal]
  exact hclear

/-- A line feed from row `y`, cursor included. -/
theorem refines_lineFeed (hgood : tty.Good layout)
    (ht : terminal < numTerminals) {y : Nat} (hy : y < terminalRows) :
    Refines layout tty terminal
      (setHardwareCursor (lineFeed tty terminal y).1 terminal 0
        (lineFeed tty terminal y).2)
      ((tty.ideal layout terminal).lineFeed y) := by
  have hwrap : (y + 1) % 256 = y + 1 := by
    simp only [terminalRows] at hy
    omega
  simp only [lineFeed, IdealTerminal.lineFeed, hwrap]
  by_cases hbottom : y + 1 ≥ terminalRows
  · simp only [hbottom, ↓reduceIte]
    have hscroll := refines_scrollScreen hgood ht
    have hcursor := @refines_setHardwareCursor layout _ terminal hscroll.good
      0 (terminalRows - 1) (by decide) (by decide)
    rw [hscroll.ideal_eq] at hcursor
    exact hscroll.trans hcursor
  · simp only [hbottom, ↓reduceIte]
    exact refines_setHardwareCursor hgood (by decide) (Nat.lt_of_not_le hbottom)

/-- Erasing one cell, away from the origin. -/
theorem refines_putcInternal_backspace (hgood : tty.Good layout)
    (ht : terminal < numTerminals)
    (horigin : tty.cursorLocation terminal ≠ (0, 0)) :
    Refines layout tty terminal (putcInternal tty terminal charBackspace)
      ((tty.ideal layout terminal).putc charBackspace) := by
  have hx := hgood.cursor_x terminal ht
  have hy := hgood.cursor_y terminal ht
  obtain ⟨hbackX, hbackY⟩ := stepBack_lt hx hy
  rw [putcInternal_backspace hy horigin]
  have hdraw := refines_videoBufferPutc hgood ht hbackX hbackY charSpace
  have hcursor := @refines_setHardwareCursor layout _ terminal hdraw.good
    _ _ hbackX hbackY
  rw [hdraw.ideal_eq] at hcursor
  exact hdraw.trans hcursor

/-- `putc_internal` acts on its own terminal, as the ideal terminal does. -/
theorem refines_putcInternal (hgood : tty.Good layout)
    (ht : terminal < numTerminals) {ch : UInt8}
    (horigin : ch = charBackspace → tty.cursorLocation terminal ≠ (0, 0)) :
    Refines layout tty terminal (putcInternal tty terminal ch)
      ((tty.ideal layout terminal).putc ch) := by
  have hx := hgood.cursor_x terminal ht
  have hy := hgood.cursor_y terminal ht
  by_cases hback : ch = charBackspace
  · rw [hback]
    exact refines_putcInternal_backspace hgood ht (horigin hback)
  · have hcursor : (tty.ideal layout terminal).cursor =
        tty.cursorLocation terminal := rfl
    simp only [putcInternal, IdealTerminal.putc, hback, ↓reduceIte, hcursor]
    by_cases hnl : ch = charNewline
    · simp only [hnl, ↓reduceIte]
      exact refines_lineFeed hgood ht hy
    · by_cases htab : ch = charTab
      · simp only [htab, ↓reduceIte]
        exact refines_setHardwareCursor hgood hx hy
      · have hwrap : ((tty.cursorLocation terminal).1 + 1) % 256 =
            (tty.cursorLocation terminal).1 + 1 := by
          simp only [terminalColumns] at hx
          omega
        simp only [hnl, htab, hwrap, ↓reduceIte]
        have hdraw := refines_videoBufferPutc hgood ht hx hy ch
        by_cases hend : (tty.cursorLocation terminal).1 + 1 ≥ terminalColumns
        · simp only [hend, ↓reduceIte]
          have hfeed := refines_lineFeed hdraw.good ht hy
          rw [hdraw.ideal_eq] at hfeed
          exact hdraw.trans hfeed
        · simp only [hend, ↓reduceIte]
          have hmove := @refines_setHardwareCursor layout _ terminal
            hdraw.good _ _ (Nat.lt_of_not_le hend) hy
          rw [hdraw.ideal_eq] at hmove
          exact hdraw.trans hmove

end Draw

end PsychOS
