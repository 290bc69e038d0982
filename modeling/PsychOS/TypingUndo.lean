/-
Backspaces against typing.  A backspace takes back what its key drew unless the
key was a tab at the wrong column: the number of blanks of a tab and the number
of its erasures are computed from different columns by different formulas.
-/
import PsychOS.CursorMotion

namespace PsychOS

/-- How often `keyboard_putc` calls `scroll_screen`. -/
def keyScrolls (tty : Tty) (terminal : Nat) (ch : UInt8) : Nat :=
  writeScrolls (keyEcho tty terminal ch).1 terminal (keyEcho tty terminal ch).2

/-- `keyboard_putc` on one key after the other. -/
def typeKeys (tty : Tty) (terminal : Nat) (keys : List UInt8) : Tty :=
  keys.foldl (fun tty ch => (keyboardPutc tty terminal ch).1) tty

def typeScrolls (tty : Tty) (terminal : Nat) : List UInt8 → Nat
  | [] => 0
  | ch :: rest =>
      keyScrolls tty terminal ch +
        typeScrolls (keyboardPutc tty terminal ch).1 terminal rest

/-- A printable character or a tab. -/
def Types (ch : UInt8) : Prop :=
  ch ≠ 0 ∧ ch ≠ charBackspace ∧ ch ≠ charNewline

/-- `keyboard_putc` accepts every key in its turn. -/
def AllAccepted (tty : Tty) (terminal : Nat) : List UInt8 → Prop
  | [] => True
  | ch :: rest =>
      (keyboardPutc tty terminal ch).2 = 1 ∧
        AllAccepted (keyboardPutc tty terminal ch).1 terminal rest

/-- The columns at which a tab is erased by as many cells as it is drawn by. -/
def TabStop (column : Nat) : Prop :=
  column = 0 ∨ 8 ≤ column ∧ column &&& spacesInTab ≠ 0

/-- Every tab is typed at such a column. -/
def TabsAligned (tty : Tty) (terminal : Nat) : List UInt8 → Prop
  | [] => True
  | ch :: rest =>
      (ch = charTab → TabStop (tty.cursorLocation terminal).1) ∧
        TabsAligned (keyboardPutc tty terminal ch).1 terminal rest

/-- As many backspaces as there were keys bring back the pending bytes and the
cursor, which is `scrolled` rows higher, as is the text before it, and leave no
cell that the keys drew. -/
def Undone (tty : Tty) (terminal : Nat) (keys : List UInt8) : Prop :=
  let erasures := List.replicate keys.length charBackspace
  let typed := typeKeys tty terminal keys
  let after := typeKeys typed terminal erasures
  let scrolled := typeScrolls tty terminal (keys ++ erasures)
  after.pending terminal = tty.pending terminal ∧
    (after.cursorLocation terminal).1 = (tty.cursorLocation terminal).1 ∧
    (after.cursorLocation terminal).2 + scrolled =
      (tty.cursorLocation terminal).2 ∧
    (∀ i, (after.view terminal).position ≤ i →
      i < (typed.view terminal).position →
      (after.view terminal).cells i = blankWord) ∧
    ∀ i < (after.view terminal).position, (after.view terminal).cells i =
      (tty.view terminal).cells (i + scrolled * terminalColumns)

/-- How many cells an accepted key draws. -/
def drawCount (tty : Tty) (terminal : Nat) (ch : UInt8) : Nat :=
  if ch = charTab then tabSpaceCount (tty.cursorLocation terminal).1 else 1

/-- How many cells accepted keys draw. -/
def drawnCells (tty : Tty) (terminal : Nat) : List UInt8 → Nat
  | [] => 0
  | ch :: rest =>
      drawCount tty terminal ch +
        drawnCells (keyboardPutc tty terminal ch).1 terminal rest

section Keys

variable {layout : Layout} {tty : Tty} {terminal : Nat} {ch : UInt8}

theorem tabSpaceCount_le (column : Nat) : tabSpaceCount column ≤ 4 := by
  simp only [tabSpaceCount]
  split <;> decide

theorem drawCount_le (tty : Tty) (terminal : Nat) (ch : UInt8) :
    drawCount tty terminal ch ≤ 4 := by
  rw [drawCount]
  split
  · exact tabSpaceCount_le _
  · decide

theorem drawnCells_le (tty : Tty) (terminal : Nat) (keys : List UInt8) :
    drawnCells tty terminal keys ≤ 4 * keys.length := by
  induction keys generalizing tty with
  | nil => exact Nat.le_refl 0
  | cons ch rest ih =>
      have hfirst := drawCount_le tty terminal ch
      have hrest := ih (keyboardPutc tty terminal ch).1
      rw [drawnCells, List.length_cons]
      omega

/-- A tab never goes past the end of its row. -/
theorem tabSpaceCount_fits :
    ∀ column < terminalColumns,
      column + tabSpaceCount column < terminalColumns := by
  decide

theorem tabEraseCount_fits :
    ∀ column < terminalColumns,
      tabEraseCount (column + tabSpaceCount column) ≤
        column + tabSpaceCount column := by
  decide

theorem tabEraseCount_eq_iff :
    ∀ column < terminalColumns,
      (tabEraseCount (column + tabSpaceCount column) = tabSpaceCount column ↔
        column = 0 ∨ 8 ≤ column ∧ column &&& spacesInTab ≠ 0) := by
  decide

/-- Positions that differ by whole rows are in one column. -/
theorem cursor_of_position_add {term other : IdealTerminal} {rows : Nat}
    (hterm : term.OnScreen) (hother : other.OnScreen)
    (hposition : term.position + rows * terminalColumns = other.position) :
    term.cursor.1 = other.cursor.1 ∧
      term.cursor.2 + rows = other.cursor.2 := by
  obtain ⟨hterm, -⟩ := hterm
  obtain ⟨hother, -⟩ := hother
  simp only [IdealTerminal.position, terminalColumns] at *
  omega

/-- Buffering bytes does not show. -/
theorem keyEcho_sameScreen (tty : Tty) (terminal : Nat) (ch : UInt8) :
    SameScreen (tty.view terminal)
      ((keyEcho tty terminal ch).1.view terminal) := by
  simp only [keyEcho]
  repeat' split
  all_goals exact ⟨rfl, rfl⟩

theorem keyboardPutc_sameScreen (tty : Tty) (terminal : Nat) (ch : UInt8) :
    SameScreen ((keyboardPutc tty terminal ch).1.view terminal)
      ((terminalWrite (keyEcho tty terminal ch).1 terminal
        (keyEcho tty terminal ch).2).view terminal) := by
  obtain ⟨counter, hkey⟩ := keyboardPutc_eq_terminalWrite tty terminal ch
  rw [hkey]
  exact ⟨rfl, rfl⟩

/-- The echo of an accepted key. -/
theorem keyEcho_accepted (hzero : ch ≠ 0) (hback : ch ≠ charBackspace)
    (haccept : (keyboardPutc tty terminal ch).2 = 1) :
    (keyEcho tty terminal ch).2 =
      if ch = charTab then
        List.replicate (tabSpaceCount (tty.cursorLocation terminal).1) charSpace
      else [ch] := by
  have hpos : ch > 0 := UInt8.pos_iff_ne_zero.mpr hzero
  simp only [keyboardPutc, keyEcho, hback, hpos, ↓reduceIte] at haccept ⊢
  by_cases hnl : ch = charNewline
  · subst hnl
    simp only [↓reduceIte] at haccept ⊢
    split at haccept
    · contradiction
    · rw [if_neg ‹_›]
      rfl
  · simp only [hnl, ↓reduceIte] at haccept ⊢
    split at haccept
    · split at haccept
      · rw [if_pos ‹_›, if_pos ‹_›, if_pos ‹_›]
      · contradiction
    · split at haccept
      · rw [if_neg ‹_›, if_pos ‹_›, if_neg ‹_›]
      · contradiction

/-- An accepted key is drawn at the cursor. -/
theorem keyboardPutc_advances (hon : (tty.view terminal).OnScreen)
    (htypes : Types ch) (haccept : (keyboardPutc tty terminal ch).2 = 1) :
    Advances (tty.view terminal)
      ((keyboardPutc tty terminal ch).1.view terminal)
      (drawCount tty terminal ch) (keyScrolls tty terminal ch) := by
  have hecho := keyEcho_accepted htypes.1 htypes.2.1 haccept
  have hdrawn : ∀ byte ∈ (keyEcho tty terminal ch).2, Drawn byte := by
    intro byte hmem
    rw [hecho] at hmem
    split at hmem
    · rw [List.eq_of_mem_replicate hmem]
      exact ⟨by decide, by decide, by decide⟩
    · rw [List.mem_singleton.mp hmem]
      exact ⟨htypes.2.1, htypes.2.2, ‹_›⟩
  have hlength : (keyEcho tty terminal ch).2.length =
      drawCount tty terminal ch := by
    rw [hecho, drawCount]
    split
    · exact List.length_replicate
    · rfl
  have hsame := keyEcho_sameScreen tty terminal ch
  have hwrite := terminalWrite_advances
    (SameScreen.onScreen ⟨hsame.1.symm, hsame.2.symm⟩ hon) hdrawn
  rw [← hlength]
  exact hwrite.congr hsame (keyboardPutc_sameScreen tty terminal ch)

theorem keyEcho_backspace (hready : tty.InputReady layout terminal)
    {last : UInt8} (hlast : (tty.pending terminal).getLast? = some last)
    (hnl : last ≠ charNewline) :
    (keyEcho tty terminal charBackspace).2 =
      List.replicate (eraseCount tty terminal last) charBackspace := by
  have hpeek : circularBufferPeekEndByte tty.inputMem
      (tty.inputBuffer terminal) = some last :=
    (CircularBuffer.peekEndByte_eq_getLast? hready.valid).trans hlast
  simp only [keyEcho, hpeek, hnl, ↓reduceIte]

theorem writeScrolls_backspaces (tty : Tty) (terminal count : Nat) :
    writeScrolls tty terminal (List.replicate count charBackspace) = 0 := by
  induction count generalizing tty with
  | zero => rfl
  | succ count ih =>
      rw [List.replicate_succ, writeScrolls, ih]
      rfl

/-- Backspace clears cells before the cursor. -/
theorem keyboardPutc_erases (hready : tty.InputReady layout terminal)
    (hon : (tty.view terminal).OnScreen) {last : UInt8}
    (hlast : (tty.pending terminal).getLast? = some last)
    (hnl : last ≠ charNewline)
    (hcount : eraseCount tty terminal last ≤ (tty.view terminal).position) :
    Erases (tty.view terminal)
        ((keyboardPutc tty terminal charBackspace).1.view terminal)
        (eraseCount tty terminal last) ∧
      keyScrolls tty terminal charBackspace = 0 := by
  have hsame := keyEcho_sameScreen tty terminal charBackspace
  have hafter := keyboardPutc_sameScreen tty terminal charBackspace
  rw [keyScrolls, keyEcho_backspace hready hlast hnl] at *
  rw [hsame.position_eq] at hcount
  have herases := terminalWrite_erases
    (SameScreen.onScreen ⟨hsame.1.symm, hsame.2.symm⟩ hon) hcount
  exact ⟨herases.congr hsame hafter, writeScrolls_backspaces _ _ _⟩

/-- An accepted key joins the pending bytes. -/
theorem keyboardPutc_types (hready : tty.InputReady layout terminal)
    (htypes : Types ch) (haccept : (keyboardPutc tty terminal ch).2 = 1) :
    (keyboardPutc tty terminal ch).1.InputReady layout terminal ∧
      (keyboardPutc tty terminal ch).1.pending terminal =
        tty.pending terminal ++ [ch] ∧
      (tty.pending terminal).length < keyboardBufferSize - 1 := by
  obtain ⟨hzero, hback, hnl⟩ := htypes
  have hspec := keyboardPutc_spec hready ch
  have hsome : (keyEffect (tty.pending terminal) ch).isSome := by
    by_contra hnone
    rw [hspec.ret_eq, if_neg hnone] at haccept
    contradiction
  rcases keyEffect_accepted hzero hsome with h | h | ⟨-, -, hroom⟩
  · exact absurd h.1 hback
  · exact absurd h.1 hnl
  · refine ⟨hspec.ready, ?_, hroom⟩
    rw [hspec.pending_eq, keyEffect_printable hback hnl hzero hroom]
    rfl

/-- Accepted keys fit into the buffer beside one newline. -/
theorem allAccepted_length (hready : tty.InputReady layout terminal)
    {keys : List UInt8} (htypes : ∀ ch ∈ keys, Types ch)
    (haccept : AllAccepted tty terminal keys) :
    keys = [] ∨ (tty.pending terminal).length + keys.length ≤
      keyboardBufferSize - 1 := by
  induction keys generalizing tty with
  | nil => exact Or.inl rfl
  | cons ch rest ih =>
      obtain ⟨hready', hpending, hroom⟩ := keyboardPutc_types hready
        (htypes ch List.mem_cons_self) haccept.1
      right
      rcases ih hready' (fun ch hmem => htypes ch (List.mem_cons_of_mem _ hmem))
        haccept.2 with rfl | hle
      · exact hroom
      · rw [hpending, List.length_append] at hle
        simp only [List.length_cons, List.length_nil] at hle ⊢
        omega

theorem keyboardPutc_backspace_pending
    (hready : tty.InputReady layout terminal) {front : List UInt8}
    {last : UInt8} (hpending : tty.pending terminal = front ++ [last])
    (hnl : last ≠ charNewline) :
    (keyboardPutc tty terminal charBackspace).1.InputReady layout terminal ∧
      (keyboardPutc tty terminal charBackspace).1.pending terminal = front := by
  have hspec := keyboardPutc_spec hready charBackspace
  have hlast : (tty.pending terminal).getLast? = some last := by
    rw [hpending, List.getLast?_concat]
  refine ⟨hspec.ready, ?_⟩
  rw [hspec.pending_eq, keyEffect_backspace hlast hnl, hpending,
    List.dropLast_concat]
  rfl

/-- The column after a tab, which `keyboard_putc` erases it from. -/
theorem column_of_tab {next : Tty} {scrolled : Nat}
    (hon : (tty.view terminal).OnScreen)
    (hadvances : Advances (tty.view terminal) (next.view terminal)
      (drawCount tty terminal charTab) scrolled) :
    (next.cursorLocation terminal).1 =
      (tty.cursorLocation terminal).1 +
        tabSpaceCount (tty.cursorLocation terminal).1 := by
  have hfits := tabSpaceCount_fits _ hon.1
  have hposition := hadvances.position_eq
  have hnext := hadvances.onScreen.1
  have hcount : drawCount tty terminal charTab =
      tabSpaceCount (tty.cursorLocation terminal).1 := if_pos rfl
  rw [hcount] at hposition
  simp only [IdealTerminal.position, Tty.view, terminalColumns] at *
  omega

theorem eraseCount_eq_drawCount_iff {next : Tty} {scrolled : Nat}
    (hon : (tty.view terminal).OnScreen)
    (hadvances : Advances (tty.view terminal) (next.view terminal)
      (drawCount tty terminal ch) scrolled) :
    eraseCount next terminal ch = drawCount tty terminal ch ↔
      (ch = charTab → TabStop (tty.cursorLocation terminal).1) := by
  by_cases htab : ch = charTab
  · subst htab
    simp only [eraseCount, drawCount, ↓reduceIte, forall_const,
      column_of_tab hon hadvances]
    exact tabEraseCount_eq_iff _ hon.1
  · simp only [eraseCount, drawCount, htab, ↓reduceIte, false_implies]

theorem eraseCount_le_position {next : Tty} {scrolled : Nat}
    (hon : (tty.view terminal).OnScreen)
    (hadvances : Advances (tty.view terminal) (next.view terminal)
      (drawCount tty terminal ch) scrolled) :
    eraseCount next terminal ch ≤ (next.view terminal).position := by
  by_cases htab : ch = charTab
  · subst htab
    have hcolumn := column_of_tab hon hadvances
    have hfits := tabEraseCount_fits _ hon.1
    simp only [eraseCount, ↓reduceIte, hcolumn]
    refine hfits.trans ?_
    change _ ≤ _ * _ + (next.cursorLocation terminal).1
    rw [hcolumn]
    exact Nat.le_add_left _ _
  · have hposition := hadvances.position_eq
    have hbottom := hadvances.bottom
    simp only [eraseCount, drawCount, htab, ↓reduceIte, screenCells,
      terminalColumns, terminalRows] at *
    omega

end Keys

theorem typeKeys_append (tty : Tty) (terminal : Nat) (keys more : List UInt8) :
    typeKeys tty terminal (keys ++ more) =
      typeKeys (typeKeys tty terminal keys) terminal more :=
  List.foldl_append

theorem typeScrolls_append (tty : Tty) (terminal : Nat)
    (keys more : List UInt8) :
    typeScrolls tty terminal (keys ++ more) = typeScrolls tty terminal keys +
      typeScrolls (typeKeys tty terminal keys) terminal more := by
  induction keys generalizing tty with
  | nil => exact (Nat.zero_add _).symm
  | cons ch rest ih =>
      rw [List.cons_append, typeScrolls, typeScrolls, ih, Nat.add_assoc]
      rfl

/-- The state after typing the keys and as many backspaces. -/
def erased (tty : Tty) (terminal : Nat) (keys : List UInt8) : Tty :=
  typeKeys (typeKeys tty terminal keys) terminal
    (List.replicate keys.length charBackspace)

/-- What the keys drew, the backspaces took back. -/
structure TakenBack (layout : Layout) (tty : Tty) (terminal : Nat)
    (keys : List UInt8) : Prop where
  advances : Advances (tty.view terminal)
    ((typeKeys tty terminal keys).view terminal)
    (drawnCells tty terminal keys) (typeScrolls tty terminal keys)
  erases : Erases ((typeKeys tty terminal keys).view terminal)
    ((erased tty terminal keys).view terminal) (drawnCells tty terminal keys)
  scrolls : typeScrolls (typeKeys tty terminal keys) terminal
    (List.replicate keys.length charBackspace) = 0
  ready : (erased tty terminal keys).InputReady layout terminal
  pending_eq : (erased tty terminal keys).pending terminal =
    tty.pending terminal

section Undo

variable {layout : Layout} {tty : Tty} {terminal : Nat} {ch : UInt8}
  {keys : List UInt8}

theorem TakenBack.position_eq (hundone : TakenBack layout tty terminal keys) :
    ((erased tty terminal keys).view terminal).position +
        typeScrolls tty terminal keys * terminalColumns =
      (tty.view terminal).position := by
  have hforward := hundone.advances.position_eq
  have hback := hundone.erases.position_eq
  omega

theorem TakenBack.nil (hready : tty.InputReady layout terminal)
    (hon : (tty.view terminal).OnScreen) : TakenBack layout tty terminal [] where
  advances := .refl hon
  erases := .refl hon
  scrolls := rfl
  ready := hready
  pending_eq := rfl

theorem erased_cons (tty : Tty) (terminal : Nat) (ch : UInt8)
    (keys : List UInt8) :
    erased tty terminal (ch :: keys) =
      (keyboardPutc (erased (keyboardPutc tty terminal ch).1 terminal keys)
        terminal charBackspace).1 := by
  rw [erased, List.length_cons, List.replicate_succ', typeKeys_append]
  rfl

/-- Once the other keys are taken back, the cells of the first one are still on
the screen: no more rows can have scrolled away than the keys have drawn. -/
theorem TakenBack.room (hadvances : Advances (tty.view terminal)
      ((keyboardPutc tty terminal ch).1.view terminal)
      (drawCount tty terminal ch) (keyScrolls tty terminal ch))
    (hrest : TakenBack layout (keyboardPutc tty terminal ch).1 terminal keys)
    (hlength : keys.length ≤ keyboardBufferSize - 1) :
    drawCount tty terminal ch ≤ ((erased
      (keyboardPutc tty terminal ch).1 terminal keys).view terminal).position := by
  have hboth := hadvances.trans hrest.advances
  have hle := drawCount_le tty terminal ch
  have hrestLe := drawnCells_le (keyboardPutc tty terminal ch).1 terminal keys
  have hback := hrest.erases.position_eq
  have hforward := hboth.position_eq
  rcases hboth.bottom with hzero | hlow
  · rw [hzero] at hforward
    omega
  · simp only [screenCells, terminalColumns, terminalRows,
      keyboardBufferSize] at hlow hlength
    omega

/-- One more key before the others, and its backspace after theirs. -/
theorem TakenBack.cons (hon : (tty.view terminal).OnScreen) (htypes : Types ch)
    (hpending : (keyboardPutc tty terminal ch).1.pending terminal =
      tty.pending terminal ++ [ch])
    (hadvances : Advances (tty.view terminal)
      ((keyboardPutc tty terminal ch).1.view terminal)
      (drawCount tty terminal ch) (keyScrolls tty terminal ch))
    (haligned : ch = charTab → TabStop (tty.cursorLocation terminal).1)
    (hrest : TakenBack layout (keyboardPutc tty terminal ch).1 terminal keys)
    (hlength : keys.length ≤ keyboardBufferSize - 1) :
    TakenBack layout tty terminal (ch :: keys) := by
  -- the remaining keys leave the column of the first one, so that its own
  -- backspace erases what it drew
  have hcolumn := (cursor_of_position_add hrest.erases.onScreen
    hadvances.onScreen hrest.position_eq).1
  have hcount : eraseCount
      (erased (keyboardPutc tty terminal ch).1 terminal keys) terminal ch =
        drawCount tty terminal ch := by
    rw [← (eraseCount_eq_drawCount_iff hon hadvances).mpr haligned]
    simp only [eraseCount]
    rw [show ((erased (keyboardPutc tty terminal ch).1 terminal
      keys).cursorLocation terminal).1 = _ from hcolumn]
    rfl
  have hroom := TakenBack.room hadvances hrest hlength
  have hpending' := hrest.pending_eq.trans hpending
  have hlast : ((erased (keyboardPutc tty terminal ch).1 terminal keys).pending
      terminal).getLast? = some ch := by
    rw [hpending', List.getLast?_concat]
  obtain ⟨herases, hscrolls⟩ := keyboardPutc_erases hrest.ready
    hrest.erases.onScreen hlast htypes.2.2 (hcount.trans_le hroom)
  obtain ⟨hready, hfront⟩ := keyboardPutc_backspace_pending hrest.ready
    hpending' htypes.2.2
  refine ⟨hadvances.trans hrest.advances, ?_, ?_, ?_, ?_⟩
  · rw [erased_cons, drawnCells, Nat.add_comm, ← hcount]
    exact hrest.erases.trans herases
  · rw [List.length_cons, List.replicate_succ', typeScrolls_append]
    exact Nat.add_eq_zero_iff.mpr ⟨hrest.scrolls, hscrolls⟩
  · rw [erased_cons]
    exact hready
  · rw [erased_cons]
    exact hfront

/-- Keys with aligned tabs are taken back, whatever the screen scrolls. -/
theorem takenBack_of_tabsAligned (hready : tty.InputReady layout terminal)
    (hon : (tty.view terminal).OnScreen) (htypes : ∀ ch ∈ keys, Types ch)
    (haccept : AllAccepted tty terminal keys)
    (haligned : TabsAligned tty terminal keys) :
    TakenBack layout tty terminal keys := by
  induction keys generalizing tty with
  | nil => exact .nil hready hon
  | cons ch rest ih =>
      have hfirst := htypes ch List.mem_cons_self
      have hothers : ∀ ch ∈ rest, Types ch :=
        fun ch hmem => htypes ch (List.mem_cons_of_mem _ hmem)
      obtain ⟨hready', hpending, -⟩ :=
        keyboardPutc_types hready hfirst haccept.1
      have hadvances := keyboardPutc_advances hon hfirst haccept.1
      have hrest := ih hready' hadvances.onScreen hothers haccept.2 haligned.2
      refine .cons hon hfirst hpending hadvances haligned.1 hrest ?_
      rcases allAccepted_length hready' hothers haccept.2 with rfl | hle
      · exact Nat.zero_le _
      · omega

theorem TakenBack.undone (hon : (tty.view terminal).OnScreen)
    (hundone : TakenBack layout tty terminal keys) :
    Undone tty terminal keys := by
  have hcursor := cursor_of_position_add hundone.erases.onScreen hon
    hundone.position_eq
  have hscrolled : typeScrolls tty terminal
      (keys ++ List.replicate keys.length charBackspace) =
        typeScrolls tty terminal keys := by
    rw [typeScrolls_append, hundone.scrolls, Nat.add_zero]
  refine ⟨hundone.pending_eq, hcursor.1, ?_, ?_, ?_⟩
  · rw [hscrolled]
    exact hcursor.2
  · intro i hfrom hto
    exact (hundone.erases.cells i).trans (if_pos ⟨hfrom, hto⟩)
  · intro i hi
    have hposition := hundone.position_eq
    change i < ((erased tty terminal keys).view terminal).position at hi
    have hkept := (hundone.erases.cells i).trans
      (if_neg fun h => absurd h.1 (Nat.not_le_of_lt hi))
    rw [hscrolled]
    exact hkept.trans (hundone.advances.text i (by omega))

/-- One key that is not undone: its backspace clears another number of cells. -/
theorem eraseCount_of_undone (hready : tty.InputReady layout terminal)
    (hon : (tty.view terminal).OnScreen) (htypes : Types ch)
    (haccept : (keyboardPutc tty terminal ch).2 = 1)
    (hundone : Undone tty terminal [ch]) :
    eraseCount (keyboardPutc tty terminal ch).1 terminal ch =
      drawCount tty terminal ch := by
  obtain ⟨hready', hpending, -⟩ := keyboardPutc_types hready htypes haccept
  have hadvances := keyboardPutc_advances hon htypes haccept
  have hlast : ((keyboardPutc tty terminal ch).1.pending terminal).getLast? =
      some ch := by
    rw [hpending, List.getLast?_concat]
  obtain ⟨herases, hscrolls⟩ := keyboardPutc_erases hready' hadvances.onScreen
    hlast htypes.2.2 (eraseCount_le_position hon hadvances)
  obtain ⟨-, hcolumn, hrow, -, -⟩ := hundone
  have hrow : ((keyboardPutc (keyboardPutc tty terminal ch).1 terminal
      charBackspace).1.cursorLocation terminal).2 +
        (keyScrolls tty terminal ch +
          keyScrolls (keyboardPutc tty terminal ch).1 terminal charBackspace) =
      (tty.cursorLocation terminal).2 := hrow
  have hcolumn : ((keyboardPutc (keyboardPutc tty terminal ch).1 terminal
      charBackspace).1.cursorLocation terminal).1 =
      (tty.cursorLocation terminal).1 := hcolumn
  rw [hscrolls] at hrow
  have hforward := hadvances.position_eq
  have hback := herases.position_eq
  simp only [IdealTerminal.position, Tty.view, terminalColumns] at hforward hback
  omega

end Undo

/-- Accepted keys are undone by as many backspaces when every tab among them is
typed at a tab stop, and a single tab is undone at no other column. -/
theorem backspaces_undo_typing {layout : Layout} {tty : Tty} {terminal : Nat}
    (hready : tty.InputReady layout terminal)
    (hx : (tty.cursorLocation terminal).1 < terminalColumns)
    (hy : (tty.cursorLocation terminal).2 < terminalRows) :
    (∀ keys : List UInt8, (∀ ch ∈ keys, Types ch) →
      AllAccepted tty terminal keys → TabsAligned tty terminal keys →
      Undone tty terminal keys) ∧
    ∀ ch : UInt8, Types ch → (keyboardPutc tty terminal ch).2 = 1 →
      (Undone tty terminal [ch] ↔
        (ch = charTab → TabStop (tty.cursorLocation terminal).1)) := by
  have hall : ∀ keys : List UInt8, (∀ ch ∈ keys, Types ch) →
      AllAccepted tty terminal keys → TabsAligned tty terminal keys →
      Undone tty terminal keys := by
    intro keys htypes haccept haligned
    exact (takenBack_of_tabsAligned hready ⟨hx, hy⟩ htypes haccept
      haligned).undone ⟨hx, hy⟩
  refine ⟨hall, ?_⟩
  intro ch htypes haccept
  constructor
  · intro hundone
    have hadvances := keyboardPutc_advances ⟨hx, hy⟩ htypes haccept
    exact (eraseCount_eq_drawCount_iff ⟨hx, hy⟩ hadvances).mp
      (eraseCount_of_undone hready ⟨hx, hy⟩ htypes haccept hundone)
  · intro haligned
    exact hall [ch] (List.forall_mem_singleton.mpr htypes) ⟨haccept, trivial⟩
      ⟨haligned, trivial⟩

/-- A booted machine with the cursor of terminal 0 in the last cell. -/
def cursorInCorner : Tty :=
  { multipleTerminalInit sampleLayout Tty.zeroed with
    cursorLocation := fun _ => (79, 24) }

/-- A letter that scrolls the screen, a tab at column 0 and another letter. -/
theorem backspaces_undo_scrolling_keys :
    typeScrolls cursorInCorner 0 [97, charTab, 98] = 1 ∧
    Undone cursorInCorner 0 [97, charTab, 98] := by
  have hboot := (@multipleTerminalInit_good sampleLayout Tty.zeroed
    (by decide)).ready 0 (by decide)
  have hready : cursorInCorner.InputReady sampleLayout 0 := by
    rw [Tty.InputReady, cursorInCorner]
    exact hboot
  refine ⟨by decide +kernel, (backspaces_undo_typing hready (by decide)
    (by decide)).1 _ ?_ ?_ ?_⟩
  · simp [Types, charTab, charBackspace, charNewline]
  · refine ⟨?_, ?_, ?_, trivial⟩ <;> decide +kernel
  · refine ⟨fun htab => absurd htab (by decide), fun _ => Or.inl ?_,
      fun htab => absurd htab (by decide), trivial⟩
    decide +kernel

/-- After a letter a tab is drawn by four blanks, from column 1 to column 5,
and erased by one: two backspaces leave the cursor at column 3. -/
theorem tab_after_letter_not_undone :
    AllAccepted (multipleTerminalInit sampleLayout Tty.zeroed) 0
      [97, charTab] ∧
    ((typeKeys (multipleTerminalInit sampleLayout Tty.zeroed) 0
      [97, charTab, charBackspace, charBackspace]).cursorLocation 0 = (3, 0)) ∧
    ¬ Undone (multipleTerminalInit sampleLayout Tty.zeroed) 0 [97, charTab] := by
  have hcursor : (typeKeys (multipleTerminalInit sampleLayout Tty.zeroed) 0
      [97, charTab, charBackspace, charBackspace]).cursorLocation 0 = (3, 0) := by
    decide +kernel
  refine ⟨⟨?_, ?_, trivial⟩, hcursor, ?_⟩
  · decide +kernel
  · decide +kernel
  · intro hundone
    have hcolumn : ((typeKeys (multipleTerminalInit sampleLayout Tty.zeroed) 0
        [97, charTab, charBackspace, charBackspace]).cursorLocation 0).1 =
        0 := hundone.2.1
    rw [hcursor] at hcolumn
    contradiction

end PsychOS
