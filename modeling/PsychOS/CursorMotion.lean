/-
Printing and erasing on the screen read as one line of 2000 cells.  Printing
goes forward, and at the end of the line the screen moves up; erasing goes back
and leaves blanks.
-/
import PsychOS.CursorBounds
import PsychOS.ScreenText

namespace PsychOS

namespace IdealTerminal

/-- The cell under the cursor, counted from the top left. -/
def position (term : IdealTerminal) : Nat :=
  term.cursor.2 * terminalColumns + term.cursor.1

/-- The cursor over a cell. -/
def place (position : Nat) : Nat × Nat :=
  (position % terminalColumns, position / terminalColumns)

variable {term : IdealTerminal}

theorem position_lt (hon : term.OnScreen) : term.position < screenCells :=
  cell_lt hon.1 hon.2

theorem position_of_place {cell : Nat} (hcursor : term.cursor = place cell) :
    term.position = cell := by
  simp only [position, hcursor, place, terminalColumns]
  omega

/-- An erasure clears the cell before the cursor and goes there. -/
theorem putc_backspace (hon : term.OnScreen) (hpos : 0 < term.position) :
    term.putc charBackspace =
      { term with
        cells := term.cells.store (term.position - 1) blankWord
        cursor := place (term.position - 1) } := by
  have hback : stepBack term.cursor = place (term.position - 1) := by
    obtain ⟨hx, -⟩ := hon
    simp only [stepBack, place, position, terminalColumns] at *
    split
    · exact Prod.ext (by simp only; omega) (by simp only; omega)
    · exact Prod.ext (by simp only; omega) (by simp only; omega)
  have hcell : (place (term.position - 1)).2 * terminalColumns +
      (place (term.position - 1)).1 = term.position - 1 := by
    simp only [place, terminalColumns]
    omega
  simp only [putc, ↓reduceIte, hback, draw, hcell]
  rfl

end IdealTerminal

/-- A character that is drawn in one cell. -/
def Drawn (ch : UInt8) : Prop :=
  ch ≠ charBackspace ∧ ch ≠ charNewline ∧ ch ≠ charTab

namespace IdealTerminal

variable {term : IdealTerminal} {ch : UInt8}

/-- A character that is drawn goes one cell forward. -/
theorem putc_forward (hon : term.OnScreen) (hdrawn : Drawn ch)
    (hroom : term.position + 1 < screenCells) :
    term.putc ch =
      { term with
        cells := term.cells.store term.position (videoWord ch)
        cursor := place (term.position + 1) } := by
  obtain ⟨hback, hnl, htab⟩ := hdrawn
  obtain ⟨hx, -⟩ := hon
  simp only [putc, hback, hnl, htab, ↓reduceIte, lineFeed, draw, position, place,
    screenCells, terminalColumns, terminalRows] at *
  split
  · rw [if_neg (by omega)]
    simp only [mk.injEq, and_true, true_and, Prod.mk.injEq]
    omega
  · simp only [mk.injEq, and_true, true_and, Prod.mk.injEq]
    omega

/-- In the last cell it makes room for a new row. -/
theorem putc_last (hon : term.OnScreen) (hdrawn : Drawn ch)
    (hlast : ¬ term.position + 1 < screenCells) :
    term.putc ch =
      { scroll { term with
          cells := term.cells.store term.position (videoWord ch) } with
        cursor := place (screenCells - terminalColumns) } := by
  obtain ⟨hback, hnl, htab⟩ := hdrawn
  obtain ⟨hx, hy⟩ := hon
  simp only [putc, hback, hnl, htab, ↓reduceIte, lineFeed, draw, position,
    screenCells, terminalColumns, terminalRows] at *
  rw [if_pos (by omega), if_pos (by omega)]
  rfl

end IdealTerminal

/-- How often a line feed from row `y` calls `scroll_screen`. -/
def feedScrolls (y : Nat) : Nat := if (y + 1) % 256 ≥ terminalRows then 1 else 0

/-- How often `putc_internal` calls `scroll_screen`. -/
def putcScrolls (tty : Tty) (terminal : Nat) (ch : UInt8) : Nat :=
  let (x, y) := tty.cursorLocation terminal
  if ch = charBackspace then 0
  else if ch = charNewline then feedScrolls y
  else if ch = charTab then 0
  else if (x + 1) % 256 ≥ terminalColumns then feedScrolls y
  else 0

def writeScrolls (tty : Tty) (terminal : Nat) : List UInt8 → Nat
  | [] => 0
  | ch :: rest =>
      putcScrolls tty terminal ch +
        writeScrolls (putcInternal tty terminal ch) terminal rest

/-- Printing went `count` cells forward while the screen moved up by `scrolled`
rows, which it does at the bottom only.  What was before the cursor is still
there, moved up. -/
structure Advances (before after : IdealTerminal) (count scrolled : Nat) :
    Prop where
  onScreen : after.OnScreen
  position_eq : after.position + scrolled * terminalColumns =
    before.position + count
  bottom : scrolled = 0 ∨ screenCells - terminalColumns ≤ after.position
  text : ∀ i, i + scrolled * terminalColumns < before.position →
    after.cells i = before.cells (i + scrolled * terminalColumns)

/-- Erasing went `count` cells back and left them blank. -/
structure Erases (before after : IdealTerminal) (count : Nat) : Prop where
  onScreen : after.OnScreen
  position_eq : after.position + count = before.position
  cells : ∀ i, after.cells i =
    if after.position ≤ i ∧ i < before.position then blankWord
    else before.cells i

/-- The same cells and the same cursor. -/
def SameScreen (left right : IdealTerminal) : Prop :=
  left.cells = right.cells ∧ left.cursor = right.cursor

theorem SameScreen.position_eq {left right : IdealTerminal}
    (hsame : SameScreen left right) : left.position = right.position := by
  rw [IdealTerminal.position, hsame.2]
  rfl

theorem SameScreen.onScreen {left right : IdealTerminal}
    (hsame : SameScreen left right) (hon : right.OnScreen) : left.OnScreen := by
  rw [IdealTerminal.OnScreen, hsame.2]
  exact hon

theorem Advances.congr {before before' after after' : IdealTerminal}
    {count scrolled : Nat} (hadvances : Advances before after count scrolled)
    (hbefore : SameScreen before' before) (hafter : SameScreen after' after) :
    Advances before' after' count scrolled where
  onScreen := hafter.onScreen hadvances.onScreen
  position_eq := by
    rw [hbefore.position_eq, hafter.position_eq]
    exact hadvances.position_eq
  bottom := by
    rw [hafter.position_eq]
    exact hadvances.bottom
  text := by
    rw [hbefore.position_eq, hbefore.1, hafter.1]
    exact hadvances.text

theorem Erases.congr {before before' after after' : IdealTerminal}
    {count : Nat} (herases : Erases before after count)
    (hbefore : SameScreen before' before) (hafter : SameScreen after' after) :
    Erases before' after' count where
  onScreen := hafter.onScreen herases.onScreen
  position_eq := by
    rw [hbefore.position_eq, hafter.position_eq]
    exact herases.position_eq
  cells := by
    rw [hbefore.position_eq, hafter.position_eq, hbefore.1, hafter.1]
    exact herases.cells

section Screen

variable {tty : Tty} {terminal : Nat}

theorem Advances.refl {term : IdealTerminal} (hon : term.OnScreen) :
    Advances term term 0 0 :=
  ⟨hon, by omega, Or.inl rfl, fun i _ => by simp⟩

theorem Advances.trans {first second third : IdealTerminal}
    {count count' scrolled scrolled' : Nat}
    (hfirst : Advances first second count scrolled)
    (hsecond : Advances second third count' scrolled') :
    Advances first third (count + count') (scrolled + scrolled') where
  onScreen := hsecond.onScreen
  position_eq := by
    have hfirst := hfirst.position_eq
    have hsecond := hsecond.position_eq
    rw [Nat.add_mul]
    omega
  bottom := by
    have hforward := hsecond.position_eq
    rcases hsecond.bottom with rfl | hlow
    · rcases hfirst.bottom with rfl | hlow
      · exact Or.inl rfl
      · right
        omega
    · exact Or.inr hlow
  text := by
    intro i hi
    have hmiddle := hfirst.position_eq
    rw [Nat.add_mul] at hi ⊢
    rw [hsecond.text i (by omega), hfirst.text _ (by omega)]
    congr 1
    omega

theorem Advances.putc {term : IdealTerminal} (hon : term.OnScreen) {ch : UInt8}
    (hdrawn : Drawn ch) :
    Advances term (term.putc ch) 1
      (if term.position + 1 < screenCells then 0 else 1) := by
  have hlt := term.position_lt hon
  refine ⟨IdealTerminal.putc_onScreen hon ch, ?_, ?_, ?_⟩
  · split
    · rw [IdealTerminal.putc_forward hon hdrawn ‹_›,
        IdealTerminal.position_of_place rfl]
      omega
    · rw [IdealTerminal.putc_last hon hdrawn ‹_›,
        IdealTerminal.position_of_place rfl]
      simp only [screenCells, terminalColumns, terminalRows] at *
      omega
  · split
    · exact Or.inl rfl
    · rw [IdealTerminal.putc_last hon hdrawn ‹_›,
        IdealTerminal.position_of_place rfl]
      exact Or.inr le_rfl
  · intro i hi
    split at hi
    · rw [if_pos ‹_›, IdealTerminal.putc_forward hon hdrawn ‹_›]
      exact Memory.store_of_ne _ _ (by omega)
    · rw [if_neg ‹_›, IdealTerminal.putc_last hon hdrawn ‹_›]
      simp only [IdealTerminal.scroll, screenCells, terminalColumns,
        terminalRows] at *
      rw [if_pos (by omega), Memory.store_of_ne _ _ (by omega)]

theorem putcScrolls_eq (hon : (tty.view terminal).OnScreen) {ch : UInt8}
    (hdrawn : Drawn ch) :
    putcScrolls tty terminal ch =
      if (tty.view terminal).position + 1 < screenCells then 0 else 1 := by
  obtain ⟨hback, hnl, htab⟩ := hdrawn
  obtain ⟨hx, hy⟩ := hon
  cases hcursor : tty.cursorLocation terminal with
  | mk x y =>
  simp only [Tty.view, hcursor] at hx hy
  have hposition : (tty.view terminal).position = y * terminalColumns + x := by
    simp only [Tty.view, IdealTerminal.position, hcursor]
  rw [hposition]
  simp only [putcScrolls, feedScrolls, hcursor, hback, hnl, htab, ↓reduceIte]
  by_cases hroom : y * terminalColumns + x + 1 < screenCells
  · rw [if_pos hroom]
    simp only [screenCells, terminalColumns, terminalRows] at *
    split
    · exact if_neg (by omega)
    · rfl
  · rw [if_neg hroom]
    simp only [screenCells, terminalColumns, terminalRows] at *
    rw [if_pos (by omega), if_pos (by omega)]

/-- One character that is drawn. -/
theorem putcInternal_advances (hon : (tty.view terminal).OnScreen)
    {ch : UInt8} (hdrawn : Drawn ch) :
    Advances (tty.view terminal) ((putcInternal tty terminal ch).view terminal)
      1 (putcScrolls tty terminal ch) := by
  rw [putcScrolls_eq hon hdrawn, view_putcInternal hon.1 hon.2
    (fun hback => absurd hback hdrawn.1)]
  exact .putc hon hdrawn

/-- Several of them. -/
theorem terminalWrite_advances (hon : (tty.view terminal).OnScreen)
    {bytes : List UInt8} (hdrawn : ∀ ch ∈ bytes, Drawn ch) :
    Advances (tty.view terminal)
      ((terminalWrite tty terminal bytes).view terminal) bytes.length
      (writeScrolls tty terminal bytes) := by
  induction bytes generalizing tty with
  | nil => exact .refl hon
  | cons ch rest ih =>
      have hput := putcInternal_advances hon (hdrawn ch List.mem_cons_self)
      have hrest := ih hput.onScreen fun other hmem =>
        hdrawn other (List.mem_cons_of_mem ch hmem)
      rw [List.length_cons, Nat.add_comm, writeScrolls]
      exact hput.trans hrest

theorem Erases.refl {term : IdealTerminal} (hon : term.OnScreen) :
    Erases term term 0 :=
  ⟨hon, rfl, fun _ => (if_neg fun h => absurd h.2 (Nat.not_lt_of_le h.1)).symm⟩

theorem Erases.trans {first second third : IdealTerminal}
    {count count' : Nat} (hfirst : Erases first second count)
    (hsecond : Erases second third count') :
    Erases first third (count + count') where
  onScreen := hsecond.onScreen
  position_eq := by
    have hfirst := hfirst.position_eq
    have hsecond := hsecond.position_eq
    omega
  cells := by
    intro i
    have hmiddle := hfirst.position_eq
    have hlast := hsecond.position_eq
    rw [hsecond.cells i, hfirst.cells i]
    split
    · rw [if_pos (by omega)]
    · split
      · rw [if_pos (by omega)]
      · rw [if_neg (by omega)]

theorem putcInternal_erases (hon : (tty.view terminal).OnScreen)
    (hpos : 0 < (tty.view terminal).position) :
    Erases (tty.view terminal)
      ((putcInternal tty terminal charBackspace).view terminal) 1 := by
  have horigin : tty.cursorLocation terminal ≠ (0, 0) := by
    intro hzero
    have hcursor : (tty.view terminal).cursor = IdealTerminal.place 0 := hzero
    rw [IdealTerminal.position_of_place hcursor] at hpos
    exact Nat.lt_irrefl 0 hpos
  have honScreen := IdealTerminal.putc_onScreen hon charBackspace
  rw [view_putcInternal hon.1 hon.2 (fun _ => horigin)]
  rw [IdealTerminal.putc_backspace hon hpos] at honScreen ⊢
  have hposition := @IdealTerminal.position_of_place
    { tty.view terminal with
      cells := (tty.view terminal).cells.store
        ((tty.view terminal).position - 1) blankWord
      cursor := IdealTerminal.place ((tty.view terminal).position - 1) } _ rfl
  refine ⟨honScreen, ?_, ?_⟩
  · rw [hposition]
    omega
  · intro i
    rw [hposition]
    simp only [Memory.store]
    split
    · rw [if_pos (by omega)]
    · rw [if_neg (by omega)]

/-- As many erasures as there are cells before the cursor, at most. -/
theorem terminalWrite_erases (hon : (tty.view terminal).OnScreen) {count : Nat}
    (hcount : count ≤ (tty.view terminal).position) :
    Erases (tty.view terminal) ((terminalWrite tty terminal
      (List.replicate count charBackspace)).view terminal) count := by
  induction count generalizing tty with
  | zero => exact .refl hon
  | succ count ih =>
      have hput := putcInternal_erases hon (by omega)
      have hafter := hput.position_eq
      have hrest := ih hput.onScreen (by omega)
      have hboth := hput.trans hrest
      rwa [Nat.add_comm 1 count] at hboth

end Screen

end PsychOS
