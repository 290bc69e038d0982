/-
The cursor and the screen.  Wrapping, scrolling and erasing keep the cursor on
the screen, with one exception: an erasure at the top left cell steps to a row
above the screen, and draws there.
-/
import PsychOS.TerminalIsolation

namespace PsychOS

/-- The cell `putc_internal` hands to `video_buffer_putc`, as an index into the
screen, if it draws one. -/
def putcCells (tty : Tty) (terminal : Nat) (ch : UInt8) : List Nat :=
  let (x, y) := tty.cursorLocation terminal
  if ch = charBackspace then
    let (x, y) := if x = 0 then (terminalColumns, (y + 255) % 256) else (x, y)
    [videoIndex (x - 1) y]
  else if ch = charNewline then []
  else if ch = charTab then []
  else [videoIndex x y]

/-- The cells drawn for several characters, one after the other. -/
def writeCells (tty : Tty) (terminal : Nat) : List UInt8 → List Nat
  | [] => []
  | ch :: rest =>
      putcCells tty terminal ch ++
        writeCells (putcInternal tty terminal ch) terminal rest

theorem scrollScreen_vram (tty : Tty) {terminal a : Nat}
    (houtside : ∀ index < screenCells, a ≠ cellAddr tty terminal index) :
    (scrollScreen tty terminal).vram a = tty.vram a := by
  simp only [scrollScreen, cellAddr, videoIndex, terminalColumns,
    terminalRows, screenCells] at houtside ⊢
  have hrange : a < tty.videoMemory terminal / 2 ∨
      tty.videoMemory terminal / 2 + 2000 ≤ a := by
    by_contra hinside
    exact houtside (a - tty.videoMemory terminal / 2) (by omega) (by omega)
  rw [Memory.fill_apply, if_neg (by omega),
    Memory.copyUp_apply _ (by omega), if_neg (by omega)]

theorem lineFeed_vram (tty : Tty) {terminal a : Nat} (y : Nat)
    (houtside : ∀ index < screenCells, a ≠ cellAddr tty terminal index) :
    (lineFeed tty terminal y).1.vram a = tty.vram a := by
  rw [lineFeed]
  split
  · exact scrollScreen_vram tty houtside
  · rfl

/-- Apart from scrolling, which moves the screen's own cells, `putc_internal`
writes to no cell but those of `putcCells`. -/
theorem putcInternal_vram (tty : Tty) {terminal a : Nat} (ch : UInt8)
    (houtside : ∀ index < screenCells, a ≠ cellAddr tty terminal index)
    (hcells : ∀ index ∈ putcCells tty terminal ch,
      a ≠ cellAddr tty terminal index) :
    (putcInternal tty terminal ch).vram a = tty.vram a := by
  simp only [putcCells] at hcells
  simp only [putcInternal]
  split
  · simp only [↓reduceIte, List.forall_mem_singleton, *] at hcells
    exact Memory.store_of_ne _ _ hcells
  · split
    · exact lineFeed_vram tty _ houtside
    · split
      · rfl
      · simp only [↓reduceIte, List.forall_mem_singleton, *] at hcells
        have hdrawn := Memory.store_of_ne tty.vram (videoWord ch) hcells
        split
        · exact (lineFeed_vram (videoBufferPutc tty terminal _ _ ch) _
            houtside).trans hdrawn
        · exact hdrawn

/-- The characters `keyboard_putc` passes to `putc_internal`, and the state in
which it starts to. -/
def keyEcho (tty : Tty) (terminal : Nat) (ch : UInt8) : Tty × List UInt8 :=
  let len := circularBufferLen (tty.inputBuffer terminal)
  if ch = charBackspace then
    match circularBufferPeekEndByte tty.inputMem
        (tty.inputBuffer terminal) with
    | none => (tty, [])
    | some last =>
        if last = charNewline then (tty, [])
        else
          (unbufferByte tty terminal,
            List.replicate (eraseCount tty terminal last) charBackspace)
  else if ch = charNewline then
    if len ≥ keyboardBufferSize then (tty, [])
    else (bufferByte tty terminal ch, [charNewline])
  else if ch = charTab then
    if len < keyboardBufferSize - 1 then
      (bufferByte tty terminal ch,
        List.replicate (tabSpaceCount (tty.cursorLocation terminal).1)
          charSpace)
    else (tty, [])
  else if ch > 0 then
    if len < keyboardBufferSize - 1 then (bufferByte tty terminal ch, [ch])
    else (tty, [])
  else (tty, [])

theorem putcTimes_eq_terminalWrite (tty : Tty) (terminal : Nat) (ch : UInt8)
    (count : Nat) :
    putcTimes tty terminal ch count =
      terminalWrite tty terminal (List.replicate count ch) := by
  induction count generalizing tty with
  | zero => rfl
  | succ count ih => exact ih (putcInternal tty terminal ch)

/-- Apart from the newline counter, a key does what writing its echo does. -/
theorem keyboardPutc_eq_terminalWrite (tty : Tty) (terminal : Nat)
    (ch : UInt8) :
    ∃ counter, (keyboardPutc tty terminal ch).1 =
      { terminalWrite (keyEcho tty terminal ch).1 terminal
          (keyEcho tty terminal ch).2 with newLineReady := counter } := by
  simp only [keyboardPutc, keyEcho]
  split
  · cases circularBufferPeekEndByte tty.inputMem
      (tty.inputBuffer terminal) with
    | none => exact ⟨_, rfl⟩
    | some last =>
        dsimp only
        split
        · exact ⟨_, rfl⟩
        · rw [putcTimes_eq_terminalWrite]
          exact ⟨_, rfl⟩
  · split
    · split
      · exact ⟨_, rfl⟩
      · exact ⟨_, rfl⟩
    · split
      · split
        · rw [putcTimes_eq_terminalWrite]
          exact ⟨_, rfl⟩
        · exact ⟨_, rfl⟩
      · split
        · split
          · exact ⟨_, rfl⟩
          · exact ⟨_, rfl⟩
        · exact ⟨_, rfl⟩

/-- The operations of the isolated terminals, and `terminal_write`. -/
inductive ScreenEvent where
  | terminal (event : TerminalEvent)
  | write (terminal : Nat) (bytes : List UInt8)

def screenStep (layout : Layout) : StepFn Tty ScreenEvent
  | tty, .terminal event => terminalStep layout tty event
  | tty, .write terminal bytes =>
      if terminal < numTerminals then some (terminalWrite tty terminal bytes)
      else none

/-- The cells the event draws through `video_buffer_putc`. -/
def eventCells (tty : Tty) : ScreenEvent → List Nat
  | .terminal (.on terminal (.putc ch)) => putcCells tty terminal ch
  | .terminal (.on terminal (.key ch)) =>
      writeCells (keyEcho tty terminal ch).1 terminal
        (keyEcho tty terminal ch).2
  | .write terminal bytes => writeCells tty terminal bytes
  | _ => []

/-- Every cell drawn is one of the terminal's screen. -/
def DrawsOnScreen (tty : Tty) (event : ScreenEvent) : Prop :=
  ∀ index ∈ eventCells tty event, index < screenCells

/-- All cursors are on the screen. -/
def CursorsOnScreen (tty : Tty) : Prop :=
  ∀ t < numTerminals, (tty.cursorLocation t).1 < terminalColumns ∧
    (tty.cursorLocation t).2 < terminalRows

/-- None of the characters is an erasure at the top left cell. -/
def WriteSafe (tty : Tty) (terminal : Nat) : List UInt8 → Prop
  | [] => True
  | ch :: rest =>
      (ch = charBackspace → tty.cursorLocation terminal ≠ (0, 0)) ∧
        WriteSafe (putcInternal tty terminal ch) terminal rest

def ErasesSafely (tty : Tty) : ScreenEvent → Prop
  | .terminal event => EventEraseSafe tty event
  | .write terminal bytes => WriteSafe tty terminal bytes

section Steps

variable {layout : Layout} {tty next : Tty} {terminal : Nat}

/-- Stepping back from a cell stays on the screen except at the origin. -/
theorem erasedCell_iff {x y : Nat} (hx : x < terminalColumns)
    (hy : y < terminalRows) :
    videoIndex ((if x = 0 then (terminalColumns, (y + 255) % 256)
        else (x, y)).1 - 1)
      (if x = 0 then (terminalColumns, (y + 255) % 256) else (x, y)).2 <
        screenCells ↔ (x, y) ≠ (0, 0) := by
  by_cases hzero : x = 0
  · cases y with
    | zero =>
        subst hzero
        decide
    | succ row =>
        have hrow : row < terminalRows := Nat.lt_of_succ_lt hy
        have hback : (row + 1 + 255) % 256 = row := by
          simp only [terminalRows] at hrow
          omega
        simp only [hzero, ↓reduceIte, hback]
        refine iff_of_true ?_ (by simp)
        rw [videoIndex_eq (by decide) hrow]
        exact cell_lt (by decide) hrow
  · have hleft : x - 1 < terminalColumns := by omega
    simp only [hzero, ↓reduceIte]
    refine iff_of_true ?_ (by simp [hzero])
    rw [videoIndex_eq hleft hy]
    exact cell_lt hleft hy

/-- One character is drawn on the screen unless it erases at the origin. -/
theorem putcCells_iff (hgood : tty.Good layout)
    (ht : terminal < numTerminals) (ch : UInt8) :
    (∀ index ∈ putcCells tty terminal ch, index < screenCells) ↔
      (ch = charBackspace → tty.cursorLocation terminal ≠ (0, 0)) := by
  have hx := hgood.cursor_x terminal ht
  have hy := hgood.cursor_y terminal ht
  by_cases hback : ch = charBackspace
  · simp only [putcCells, hback, ↓reduceIte, List.forall_mem_singleton,
      forall_const]
    exact erasedCell_iff hx hy
  · have hcell := cell_lt hx hy
    rw [← videoIndex_eq hx hy] at hcell
    simp only [putcCells, hback, ↓reduceIte, false_implies, iff_true]
    split
    · exact fun index hmem => absurd hmem List.not_mem_nil
    · split
      · exact fun index hmem => absurd hmem List.not_mem_nil
      · rw [List.forall_mem_singleton]
        exact hcell

theorem writeCells_iff (hgood : tty.Good layout)
    (ht : terminal < numTerminals) (bytes : List UInt8) :
    (∀ index ∈ writeCells tty terminal bytes, index < screenCells) ↔
      WriteSafe tty terminal bytes := by
  induction bytes generalizing tty with
  | nil => exact iff_of_true (fun _ hmem => absurd hmem List.not_mem_nil) trivial
  | cons ch rest ih =>
      rw [writeCells, List.forall_mem_append, WriteSafe,
        putcCells_iff hgood ht]
      apply and_congr_right
      intro hsafe
      exact ih (refines_putcInternal hgood ht hsafe).good

theorem terminalWrite_good (hgood : tty.Good layout)
    (ht : terminal < numTerminals) {bytes : List UInt8}
    (hsafe : WriteSafe tty terminal bytes) :
    (terminalWrite tty terminal bytes).Good layout := by
  induction bytes generalizing tty with
  | nil => exact hgood
  | cons ch rest ih =>
      exact ih (refines_putcInternal hgood ht hsafe.1).good hsafe.2

theorem writeSafe_replicate_backspace (tty : Tty) (terminal count : Nat) :
    WriteSafe tty terminal (List.replicate count charBackspace) ↔
      EraseSafe tty terminal count := by
  induction count generalizing tty with
  | zero => exact Iff.rfl
  | succ count ih =>
      rw [List.replicate_succ, WriteSafe, EraseSafe, ih]
      simp only [forall_const]

theorem writeSafe_of_no_backspace {bytes : List UInt8}
    (hnone : charBackspace ∉ bytes) : WriteSafe tty terminal bytes := by
  induction bytes generalizing tty with
  | nil => trivial
  | cons ch rest ih =>
      rw [List.mem_cons, not_or] at hnone
      exact ⟨fun hback => absurd hback.symm hnone.1, ih hnone.2⟩

/-- A key other than backspace echoes no erasure. -/
theorem backspace_not_mem_keyEcho {ch : UInt8} (hback : ch ≠ charBackspace) :
    charBackspace ∉ (keyEcho tty terminal ch).2 := by
  simp only [keyEcho, hback, ↓reduceIte]
  split
  · split
    · exact List.not_mem_nil
    · exact fun hmem => absurd (List.mem_singleton.mp hmem) (by decide)
  · split
    · split
      · rw [List.mem_replicate]
        exact fun h => absurd h.2 (by decide)
      · exact List.not_mem_nil
    · split
      · split
        · exact fun hmem => hback (List.mem_singleton.mp hmem).symm
        · exact List.not_mem_nil
      · exact List.not_mem_nil

/-- The echo of a key erases at the origin exactly when the key does. -/
theorem writeSafe_keyEcho (hgood : tty.Good layout)
    (ht : terminal < numTerminals) (ch : UInt8) :
    WriteSafe (keyEcho tty terminal ch).1 terminal
        (keyEcho tty terminal ch).2 ↔ KeyEraseSafe tty terminal ch := by
  by_cases hback : ch = charBackspace
  · simp only [keyEcho, KeyEraseSafe, hback, ↓reduceIte, forall_const]
    cases circularBufferPeekEndByte tty.inputMem
      (tty.inputBuffer terminal) with
    | none =>
        refine iff_of_true trivial ?_
        intro _ hnone
        cases hnone
    | some last =>
        simp only [Option.some.injEq, forall_eq']
        by_cases hnl : last = charNewline
        · simp only [hnl, ↓reduceIte, ne_eq, not_true_eq_false,
            false_implies, iff_true]
          trivial
        · simp only [hnl, ↓reduceIte, ne_eq, not_false_eq_true, forall_const]
          rw [writeSafe_replicate_backspace]
          exact eraseSafe_unbufferByte hgood ht _
  · exact iff_of_true
      (writeSafe_of_no_backspace (backspace_not_mem_keyEcho hback))
      (fun hsame => absurd hsame hback)

theorem keyEcho_good (hgood : tty.Good layout)
    (ht : terminal < numTerminals) (ch : UInt8) :
    (keyEcho tty terminal ch).1.Good layout := by
  have hlen : circularBufferLen (tty.inputBuffer terminal) =
      (tty.pending terminal).length := (tty.pending_length terminal).symm
  have hbuffer : (tty.pending terminal).length < keyboardBufferSize →
      (bufferByte tty terminal ch).Good layout :=
    fun hroom => (refines_bufferByte hgood ht ch hroom).good
  simp only [keyEcho, hlen]
  split
  · cases circularBufferPeekEndByte tty.inputMem
      (tty.inputBuffer terminal) with
    | none => exact hgood
    | some last =>
        dsimp only
        split
        · exact hgood
        · exact (refines_unbufferByte hgood ht).good
  · split
    · split
      · exact hgood
      · exact hbuffer (Nat.lt_of_not_le ‹_›)
    · split
      · split
        · exact hbuffer (by omega)
        · exact hgood
      · split
        · split
          · exact hbuffer (by omega)
          · exact hgood
        · exact hgood

/-- An event draws on the screen exactly when no erasure of it starts at the
top left cell. -/
theorem drawsOnScreen_iff (hgood : tty.Good layout) {event : ScreenEvent}
    (hstep : screenStep layout tty event = some next) :
    DrawsOnScreen tty event ↔ ErasesSafely tty event := by
  cases event with
  | write terminal bytes =>
      have ht : terminal < numTerminals := by
        by_contra hno
        simp [screenStep, hno] at hstep
      exact writeCells_iff hgood ht bytes
  | terminal event =>
      cases event with
      | switchTo newTerminal =>
          exact iff_of_true (fun _ hmem => absurd hmem List.not_mem_nil)
            trivial
      | on terminal op =>
          have ht : terminal < numTerminals := by
            by_contra hno
            simp [screenStep, terminalStep, hno] at hstep
          cases op with
          | putc ch => exact putcCells_iff hgood ht ch
          | key ch =>
              exact (writeCells_iff (keyEcho_good hgood ht ch) ht _).trans
                (writeSafe_keyEcho hgood ht ch)
          | clear | reset | read nbytes =>
              exact iff_of_true (fun _ hmem => absurd hmem List.not_mem_nil)
                trivial

/-- An event that erases safely keeps the driver's invariant. -/
theorem screenStep_good (hgood : tty.Good layout) {event : ScreenEvent}
    (hsafe : ErasesSafely tty event)
    (hstep : screenStep layout tty event = some next) :
    next.Good layout := by
  cases event with
  | terminal event => exact terminalStep_good hgood hsafe hstep
  | write terminal bytes =>
      rw [screenStep] at hstep
      split at hstep
      · obtain rfl := Option.some.inj hstep
        exact terminalWrite_good hgood ‹_› hsafe
      · contradiction

end Steps

/-- From `multiple_terminal_init` on, the cursors stay on the screen and every
character is drawn on the screen exactly in the runs that never erase at the
top left cell of a terminal. -/
theorem cursor_on_screen_iff {layout : Layout} {boot final : Tty}
    {events : List ScreenEvent}
    (hactive : boot.activeTerminal < numTerminals)
    (hrun : StepFn.run (screenStep layout) (multipleTerminalInit layout boot)
      events = some final) :
    StepFn.Throughout (screenStep layout) CursorsOnScreen
          (multipleTerminalInit layout boot) events ∧
        StepFn.Along (screenStep layout) DrawsOnScreen
          (multipleTerminalInit layout boot) events ↔
      StepFn.Along (screenStep layout) ErasesSafely
        (multipleTerminalInit layout boot) events := by
  have hstart : (multipleTerminalInit layout boot).Good layout :=
    multipleTerminalInit_good hactive
  have hdraws := StepFn.along_iff_along
    (fun _ _ _ hgood hstep => drawsOnScreen_iff hgood hstep)
    (fun _ _ _ hgood hsafe hstep => screenStep_good hgood hsafe hstep)
    hstart hrun
  rw [hdraws]
  apply and_iff_right_of_imp
  intro hsafe
  exact StepFn.throughout_of_along
    (fun _ _ _ hgood hsafe hstep => screenStep_good hgood hsafe hstep)
    (fun tty hgood t ht => ⟨hgood.cursor_x t ht, hgood.cursor_y t ht⟩)
    hstart hsafe

/-- A character drawn and erased again, then one typed on the next terminal. -/
def drawnThenErased : List ScreenEvent :=
  [.write 0 [65, charBackspace], .terminal (.switchTo 1),
    .terminal (.on 1 (.key 66))]

theorem drawnThenErased_on_screen : ∃ final,
    StepFn.run (screenStep sampleLayout)
      (multipleTerminalInit sampleLayout Tty.zeroed) drawnThenErased =
        some final ∧
    final.cursorLocation 1 = (1, 0) ∧
    StepFn.Throughout (screenStep sampleLayout) CursorsOnScreen
      (multipleTerminalInit sampleLayout Tty.zeroed) drawnThenErased := by
  have hsafe : StepFn.Along (screenStep sampleLayout) ErasesSafely
      (multipleTerminalInit sampleLayout Tty.zeroed) drawnThenErased := by
    refine ⟨⟨fun hback => absurd hback (by decide), ?_, trivial⟩, ?_⟩
    · exact fun _ => by decide +kernel
    rintro _ ⟨rfl⟩
    refine ⟨trivial, ?_⟩
    rintro _ ⟨rfl⟩
    refine ⟨fun hback => absurd hback (by decide), ?_⟩
    rintro _ ⟨rfl⟩
    trivial
  exact ⟨_, rfl, by decide +kernel,
    ((@cursor_on_screen_iff sampleLayout Tty.zeroed _ _ (by decide)
      rfl).mpr hsafe).1⟩

/-- A program writes one backspace on an empty screen, or a user types a
character, clears the screen and presses backspace: the cursor goes to row 255
and a blank is drawn at index 20479. -/
theorem erase_at_origin_leaves_screen :
    (∃ final, StepFn.run (screenStep sampleLayout)
        (multipleTerminalInit sampleLayout Tty.zeroed)
        [.write 0 [charBackspace]] = some final ∧
      final.cursorLocation 0 = (79, 255)) ∧
    eventCells (multipleTerminalInit sampleLayout Tty.zeroed)
      (.write 0 [charBackspace]) = [20479] ∧
    ∃ typed final, StepFn.run (screenStep sampleLayout)
        (multipleTerminalInit sampleLayout Tty.zeroed)
        [.terminal (.on 0 (.key 97)), .terminal (.on 0 .clear)] =
          some typed ∧
      screenStep sampleLayout typed
        (.terminal (.on 0 (.key charBackspace))) = some final ∧
      eventCells typed (.terminal (.on 0 (.key charBackspace))) = [20479] ∧
      final.cursorLocation 0 = (79, 255) := by
  refine ⟨⟨_, rfl, ?_⟩, ?_, _, _, rfl, rfl, ?_, ?_⟩ <;> decide +kernel

end PsychOS
