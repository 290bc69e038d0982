/-
The keyboard interrupt (`tty/terminal.c`, `tty/keyboard_map.c`).  One
invocation of `keyboard_handler` drains the scancodes the controller holds.  It
reads the active terminal once, at its start, and prints there.
-/
import PsychOS.CursorBounds

namespace PsychOS

abbrev keycodeMask : UInt8 := 0x7F
abbrev keyboardEscapeCode : UInt8 := 0xE1
abbrev keyboardCtrl : Nat := 0x1D
abbrev keyboardAlt : Nat := 0x38
abbrev keyboardLeftShift : Nat := 0x2A
abbrev keyboardRightShift : Nat := 0x36
abbrev keyboardCapsLock : Nat := 0x3A
abbrev keyboardF1 : Nat := 0x3B

/-- One of the four key maps.  They differ in the four rows of a keyboard: the
digits, and the rows that start with `q`, with `a` and with the backslash. -/
def keyRows (digits top home bottom : List UInt8) : List UInt8 :=
  [0, 27] ++ digits ++ [charBackspace, charTab] ++ top ++ [charNewline, 0] ++
    home ++ [0] ++ bottom ++
    -- right shift, the keypad's `*`, alt and space
    [0, 42, 0, charSpace] ++
    -- caps lock, F1 to F10, the locks and the keypad around its `-`
    List.replicate 16 0 ++ [45] ++ List.replicate 15 0

/-- `keyboard_map`: neither, shift, caps lock, both. -/
def keyboardMap : Nat → List UInt8
  | 0 =>
      keyRows [49, 50, 51, 52, 53, 54, 55, 56, 57, 48, 45, 61]
        [113, 119, 101, 114, 116, 121, 117, 105, 111, 112, 91, 93]
        [97, 115, 100, 102, 103, 104, 106, 107, 108, 59, 39, 96]
        [92, 122, 120, 99, 118, 98, 110, 109, 44, 46, 47]
  | 1 =>
      keyRows [33, 64, 35, 36, 37, 94, 38, 42, 40, 41, 95, 43]
        [81, 87, 69, 82, 84, 89, 85, 73, 79, 80, 123, 125]
        [65, 83, 68, 70, 71, 72, 74, 75, 76, 58, 34, 126]
        [124, 90, 88, 67, 86, 66, 78, 77, 60, 62, 63]
  | 2 =>
      keyRows [49, 50, 51, 52, 53, 54, 55, 56, 57, 48, 45, 61]
        [81, 87, 69, 82, 84, 89, 85, 73, 79, 80, 91, 93]
        [65, 83, 68, 70, 71, 72, 74, 75, 76, 59, 39, 96]
        [92, 90, 88, 67, 86, 66, 78, 77, 44, 46, 47]
  | _ =>
      keyRows [33, 64, 35, 36, 37, 94, 38, 42, 40, 41, 95, 43]
        [113, 119, 101, 114, 116, 121, 117, 105, 111, 112, 123, 125]
        [97, 115, 100, 102, 103, 104, 106, 107, 108, 58, 34, 126]
        [124, 122, 120, 99, 118, 98, 110, 109, 60, 62, 63]

/-- What the handler computes about a key that went down. -/
structure Press where
  keycode : Nat
  ctrlPressed : Bool
  altPressed : Bool
  pressedChar : UInt8

/-- The entries of a map that its initialiser leaves out are zero. -/
def press (keyboardState : Nat → Bool) (capsLockStatus : Bool)
    (keycode : Nat) : Press where
  keycode := keycode
  ctrlPressed := keyboardState keyboardCtrl
  altPressed := keyboardState keyboardAlt
  pressedChar :=
    let shiftPressed :=
      keyboardState keyboardLeftShift || keyboardState keyboardRightShift
    let mapIndex := shiftPressed.toNat ||| (capsLockStatus.toNat <<< 1)
    (keyboardMap mapIndex).getD keycode 0

namespace Press

/-- Ctrl+1 to Ctrl+5 run the test suite. -/
def RunsTests (key : Press) : Prop :=
  key.ctrlPressed ∧ 49 ≤ key.pressedChar ∧ key.pressedChar ≤ 53

/-- Alt+F1 to Alt+F3 switch terminals. -/
def Switches (key : Press) : Prop :=
  key.altPressed ∧ keyboardF1 ≤ key.keycode ∧
    key.keycode < keyboardF1 + numTerminals

/-- Ctrl+L clears the screen and redraws the pending bytes. -/
def Redraws (key : Press) : Prop :=
  key.ctrlPressed ∧ key.pressedChar = 108

/-- Combinations with Ctrl or Alt are not printable. -/
def printed (key : Press) : UInt8 :=
  if key.ctrlPressed || key.altPressed then 0 else key.pressedChar

instance (key : Press) : Decidable key.RunsTests :=
  inferInstanceAs (Decidable (_ ∧ _ ∧ _))

instance (key : Press) : Decidable key.Switches :=
  inferInstanceAs (Decidable (_ ∧ _ ∧ _))

instance (key : Press) : Decidable key.Redraws :=
  inferInstanceAs (Decidable (_ ∧ _))

end Press

/-- The driver with the keys that are down and the state of caps lock. -/
structure Keyboard where
  tty : Tty
  keyboardState : Nat → Bool
  capsLockStatus : Bool

/-- The part of the state that decides what a scancode means. -/
structure KeyState where
  keyboardState : Nat → Bool
  capsLockStatus : Bool
  activeTerminal : Nat

def Keyboard.keyState (kb : Keyboard) : KeyState :=
  ⟨kb.keyboardState, kb.capsLockStatus, kb.tty.activeTerminal⟩

def keycodeOf (code : UInt8) : Nat := (code &&& keycodeMask).toNat

/-- The key that a scancode below 0x80 reports. -/
def KeyState.pressOf (keys : KeyState) (code : UInt8) : Press :=
  press (Function.update keys.keyboardState (keycodeOf code) true)
    keys.capsLockStatus (keycodeOf code)

/-- What Ctrl+L does: the pending bytes go to the cleared screen through
`putc_internal`. -/
def redrawInput (tty : Tty) (terminal : Nat) : Tty :=
  let pending := circularBufferPeek tty.inputMem (tty.inputBuffer terminal)
    keyboardBufferSize
  terminalWrite (clearTerminal tty terminal) terminal pending

/-- What the handler does to the terminals for a key that went down. -/
def Press.act (layout : Layout) (terminalNum : Nat) (key : Press) (tty : Tty) :
    Tty :=
  let tty :=
    if key.Switches then
      switchActiveTerminal layout tty (key.keycode - keyboardF1)
    else tty
  let tty := if key.Redraws then redrawInput tty terminalNum else tty
  if key.printed > 0 then (keyboardPutc tty terminalNum key.printed).1 else tty

/-- One turn of the loop in `keyboard_handler`, for a handler that was entered
while `terminalNum` was active; `none` where the test suite would run. -/
def handleScancode (layout : Layout) (terminalNum : Nat) :
    StepFn Keyboard UInt8
  | kb, code =>
      let keycode := keycodeOf code
      if code = keyboardEscapeCode then some kb
      -- negative as an `int8_t`: the key was released
      else if code ≥ 0x80 then
        some { kb with
          keyboardState := Function.update kb.keyboardState keycode false }
      else
        let key := kb.keyState.pressOf code
        if key.RunsTests then none
        else some
          { tty := key.act layout terminalNum kb.tty
            keyboardState := Function.update kb.keyboardState keycode true
            capsLockStatus :=
              if keycode = keyboardCapsLock then !kb.capsLockStatus
              else kb.capsLockStatus }

/-- `keyboard_handler` on the scancodes it finds in the controller. -/
def keyboardHandler (layout : Layout) : StepFn Keyboard (List UInt8)
  | kb, codes =>
      StepFn.run (handleScancode layout kb.tty.activeTerminal) kb codes

namespace KeyState

/-- The scancode changes the screen or the buffer of a terminal. -/
def Draws (keys : KeyState) (code : UInt8) : Prop :=
  code ≠ keyboardEscapeCode ∧ code < 0x80 ∧
    ((keys.pressOf code).Redraws ∨ (keys.pressOf code).printed > 0)

instance (keys : KeyState) : DecidablePred keys.Draws := fun _ =>
  inferInstanceAs (Decidable (_ ∧ _ ∧ (_ ∨ _)))

/-- One scancode, without what it draws. -/
def step : StepFn KeyState UInt8
  | keys, code =>
      let keycode := keycodeOf code
      if code = keyboardEscapeCode then some keys
      else if code ≥ 0x80 then
        some { keys with
          keyboardState := Function.update keys.keyboardState keycode false }
      else
        let key := keys.pressOf code
        if key.RunsTests then none
        else some
          { keyboardState := Function.update keys.keyboardState keycode true
            capsLockStatus :=
              if keycode = keyboardCapsLock then !keys.capsLockStatus
              else keys.capsLockStatus
            activeTerminal :=
              if key.Switches then key.keycode - keyboardF1
              else keys.activeTerminal }

end KeyState

/-- Which terminal is shown and where each one draws.  Only a switch changes
that. -/
def Tty.wiring (tty : Tty) : Nat × (Nat → Nat) :=
  (tty.activeTerminal, tty.videoMemory)

section Drawing

variable {tty : Tty} {terminal : Nat}

theorem lineFeed_wiring (y : Nat) :
    (lineFeed tty terminal y).1.wiring = tty.wiring := by
  rw [lineFeed]
  split <;> rfl

theorem putcInternal_wiring (ch : UInt8) :
    (putcInternal tty terminal ch).wiring = tty.wiring := by
  simp only [putcInternal]
  split
  · rfl
  · split
    · exact lineFeed_wiring _
    · split
      · rfl
      · split
        · exact lineFeed_wiring _
        · rfl

theorem terminalWrite_wiring (bytes : List UInt8) :
    (terminalWrite tty terminal bytes).wiring = tty.wiring := by
  induction bytes generalizing tty with
  | nil => rfl
  | cons ch rest ih => exact ih.trans (putcInternal_wiring ch)

theorem keyboardPutc_wiring (ch : UInt8) :
    (keyboardPutc tty terminal ch).1.wiring = tty.wiring := by
  obtain ⟨counter, hkey⟩ := keyboardPutc_eq_terminalWrite tty terminal ch
  rw [hkey]
  refine (terminalWrite_wiring _).trans ?_
  simp only [keyEcho]
  repeat' split
  all_goals rfl

theorem redrawInput_wiring :
    (redrawInput tty terminal).wiring = tty.wiring := by
  rw [redrawInput, terminalWrite_wiring, Tty.wiring,
    clearTerminal_activeTerminal, clearTerminal_videoMemory, Tty.wiring]

theorem keyboardPutc_activeTerminal (ch : UInt8) :
    (keyboardPutc tty terminal ch).1.activeTerminal = tty.activeTerminal :=
  congrArg Prod.fst (keyboardPutc_wiring ch)

theorem redrawInput_activeTerminal :
    (redrawInput tty terminal).activeTerminal = tty.activeTerminal :=
  congrArg Prod.fst redrawInput_wiring

end Drawing

section Scancode

variable {layout : Layout}

theorem Press.act_activeTerminal (terminalNum : Nat) (key : Press) (tty : Tty) :
    (key.act layout terminalNum tty).activeTerminal =
      if key.Switches then key.keycode - keyboardF1
      else tty.activeTerminal := by
  have hswitch : (if key.Switches then
      switchActiveTerminal layout tty (key.keycode - keyboardF1)
      else tty).activeTerminal =
        if key.Switches then key.keycode - keyboardF1
        else tty.activeTerminal := by
    split
    · rename_i hswitches
      obtain ⟨-, hfrom, hto⟩ := hswitches
      exact (switchActiveTerminal_fields (by omega)).1
    · rfl
  rw [← hswitch, Press.act]
  split
  · rw [keyboardPutc_activeTerminal]
    split
    · exact redrawInput_activeTerminal
    · rfl
  · split
    · exact redrawInput_activeTerminal
    · rfl

/-- What a scancode means does not depend on the terminals, nor on where the
handler prints. -/
theorem handleScancode_keyState (terminalNum : Nat) (kb : Keyboard)
    (code : UInt8) :
    (handleScancode layout terminalNum kb code).map Keyboard.keyState =
      kb.keyState.step code := by
  simp only [handleScancode, KeyState.step]
  split
  · rfl
  · split
    · rfl
    · split
      · rfl
      · rw [Option.map_some, Keyboard.keyState, Press.act_activeTerminal]
        rfl

/-- Where the handler prints matters to the scancodes that draw only. -/
theorem handleScancode_congr {terminalNum other : Nat} {kb : Keyboard}
    {code : UInt8} (hdraws : kb.keyState.Draws code → terminalNum = other) :
    handleScancode layout terminalNum kb code =
      handleScancode layout other kb code := by
  by_cases hsame : terminalNum = other
  · rw [hsame]
  · have hnot : ¬ kb.keyState.Draws code := fun h => hsame (hdraws h)
    simp only [handleScancode]
    split
    · rfl
    · split
      · rfl
      · have hdrawn : ¬ ((kb.keyState.pressOf code).Redraws ∨
            (kb.keyState.pressOf code).printed > 0) :=
          fun h => hnot ⟨‹_›, UInt8.not_le.mp ‹_›, h⟩
        rw [not_or] at hdrawn
        simp only [Press.act, if_neg hdrawn.1, if_neg hdrawn.2]

end Scancode

end PsychOS
