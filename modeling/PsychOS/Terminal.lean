/-
The terminal driver (`tty/terminal.c`): three terminals that share one
physical screen and one keyboard.  The screen of the active terminal is video
memory itself, the others draw into background buffers, and a pointer table
says where each terminal draws.
-/
import PsychOS.CircularBuffer

namespace PsychOS

abbrev keyboardBufferSize : Nat := 128
abbrev terminalColumns : Nat := 80
abbrev terminalRows : Nat := 25
abbrev numTerminals : Nat := 3
abbrev spacesInTab : Nat := 4
abbrev videoPhysAddr : Nat := 0xB8000
abbrev fourKbAligned : Nat := 4096

/-- The characters the driver treats specially. -/
abbrev charBackspace : UInt8 := 8
abbrev charTab : UInt8 := 9
abbrev charNewline : UInt8 := 10
abbrev charSpace : UInt8 := 32

/-- Where the linker puts the static arrays of the kernel image, which is
linked at 4MB and lives in the kernel's 4MB page.  `outputBuffer` and
`vmemPt` carry the alignment their declarations ask for. -/
structure Layout where
  outputBuffer : Nat
  inputBufferInternal : Nat
  vmemPt : Nat
  outputBuffer_aligned : outputBuffer % 4096 = 0
  outputBuffer_ge : 0x400000 ≤ outputBuffer
  outputBuffer_le : outputBuffer + 3 * 8192 ≤ 0x800000
  inputBufferInternal_ge : 0x400000 ≤ inputBufferInternal
  vmemPt_aligned : vmemPt % 4096 = 0
  vmemPt_ge : 0x400000 ≤ vmemPt
  vmemPt_le : vmemPt + 4096 ≤ 0x800000

/-- The state of the driver.  `vram` holds physical memory as 16-bit words,
word `n` being the bytes at `2 * n`; `inputMem` holds the bytes of
`input_buffer_internal`; `hardwareCursor` is what the two CRTC cursor
registers hold. -/
structure Tty where
  activeTerminal : Nat
  vram : Memory UInt16
  videoMemory : Nat → Nat
  cursorLocation : Nat → Nat × Nat
  hardwareCursor : Nat
  inputBuffer : Nat → CircularBuffer
  inputMem : Memory UInt8
  newLineReady : Nat → Nat

/-- A placement of the static arrays, for evaluating concrete runs. -/
def sampleLayout : Layout where
  outputBuffer := 0x500000
  inputBufferInternal := 0x510000
  vmemPt := 0x520000
  outputBuffer_aligned := by decide
  outputBuffer_ge := by decide
  outputBuffer_le := by decide
  inputBufferInternal_ge := by decide
  vmemPt_aligned := by decide
  vmemPt_ge := by decide
  vmemPt_le := by decide

/-- The driver's static data as a zero-filled image leaves it. -/
def Tty.zeroed : Tty where
  activeTerminal := 0
  vram := fun _ => 0
  videoMemory := fun _ => 0
  cursorLocation := fun _ => (0, 0)
  hardwareCursor := 0
  inputBuffer := fun _ => ⟨0, 0, 0, 0, 0, 0⟩
  inputMem := fun _ => 0
  newLineReady := fun _ => 0

/-- `VIDEO_INDEX`, stored in a `uint16_t`. -/
def videoIndex (x y : Nat) : Nat := (y * terminalColumns + x) % 2 ^ 16

/-- A character with the white-on-black attribute. -/
def videoWord (ch : UInt8) : UInt16 := ch.toUInt16 ||| 0x0F00

def blankWord : UInt16 := videoWord charSpace

/-- `output_buffer[terminal_num]`: rows of 4096 16-bit words. -/
def Layout.outputBufferOf (layout : Layout) (terminal : Nat) : Nat :=
  layout.outputBuffer + 8192 * terminal

def Layout.inputBlock (layout : Layout) (terminal : Nat) : Nat :=
  layout.inputBufferInternal + keyboardBufferSize * terminal

def getTerminalOutputBuffer (layout : Layout) (tty : Tty) (terminal : Nat) :
    Nat :=
  if terminal = tty.activeTerminal then videoPhysAddr
  else layout.outputBufferOf terminal

def setHardwareCursor (tty : Tty) (terminal x y : Nat) : Tty :=
  { tty with
    cursorLocation := Function.update tty.cursorLocation terminal (x, y)
    hardwareCursor :=
      if terminal = tty.activeTerminal then videoIndex x y
      else tty.hardwareCursor }

/-- The word address of cell `index` of a terminal's screen. -/
def cellAddr (tty : Tty) (terminal index : Nat) : Nat :=
  tty.videoMemory terminal / 2 + index

def videoBufferPutc (tty : Tty) (terminal x y : Nat) (ch : UInt8) : Tty :=
  { tty with
    vram := tty.vram.store (cellAddr tty terminal (videoIndex x y))
      (videoWord ch) }

/-- `scroll_screen`: the `memmove` has its source above its destination and so
copies upwards, then the last row is blanked by `memset_word`. -/
def scrollScreen (tty : Tty) (terminal : Nat) : Tty :=
  let moved := tty.vram.copyUp
    (cellAddr tty terminal (videoIndex 0 0))
    (cellAddr tty terminal (videoIndex 0 1))
    (terminalColumns * (terminalRows - 1))
  { tty with
    vram := moved.fill
      (cellAddr tty terminal (videoIndex 0 (terminalRows - 1)))
      blankWord terminalColumns }

/-- The cursor row after a line feed, scrolling at the bottom. -/
def lineFeed (tty : Tty) (terminal y : Nat) : Tty × Nat :=
  let y := (y + 1) % 256
  if y ≥ terminalRows then (scrollScreen tty terminal, terminalRows - 1)
  else (tty, y)

/-- `putc_internal`.  Cursor coordinates are bytes and wrap as bytes do. -/
def putcInternal (tty : Tty) (terminal : Nat) (ch : UInt8) : Tty :=
  let (x, y) := tty.cursorLocation terminal
  if ch = charBackspace then
    let (x, y) := if x = 0 then (terminalColumns, (y + 255) % 256) else (x, y)
    let x := x - 1
    setHardwareCursor (videoBufferPutc tty terminal x y charSpace) terminal x y
  else if ch = charNewline then
    let (tty, y) := lineFeed tty terminal y
    setHardwareCursor tty terminal 0 y
  else if ch = charTab then
    setHardwareCursor tty terminal x y
  else
    let tty := videoBufferPutc tty terminal x y ch
    let x := (x + 1) % 256
    if x ≥ terminalColumns then
      let (tty, y) := lineFeed tty terminal y
      setHardwareCursor tty terminal 0 y
    else setHardwareCursor tty terminal x y

/-- The same character several times, as the fall-through `switch`es do. -/
def putcTimes (tty : Tty) (terminal : Nat) (ch : UInt8) : Nat → Tty
  | 0 => tty
  | count + 1 => putcTimes (putcInternal tty terminal ch) terminal ch count

def clearTerminal (tty : Tty) (terminal : Nat) : Tty :=
  let vram := tty.vram.fill (cellAddr tty terminal 0) blankWord
    (terminalColumns * terminalRows)
  setHardwareCursor { tty with vram := vram } terminal 0 0

/-- How many backspaces the `switch` on `pos` issues when a tab is erased. -/
def tabEraseCount (x : Nat) : Nat :=
  match (x - (x &&& spacesInTab)) % 256 with
  | 0 => 4
  | 3 => 3
  | 2 => 2
  | 1 => 1
  | _ => 0

/-- How many blanks the `switch` on `pos` issues when a tab is typed. -/
def tabSpaceCount (x : Nat) : Nat :=
  match x &&& spacesInTab with
  | 0 => 4
  | 1 => 3
  | 2 => 2
  | 3 => 1
  | _ => 0

/-- Put one byte into a terminal's input buffer. -/
def bufferByte (tty : Tty) (terminal : Nat) (ch : UInt8) : Tty :=
  let (mem, buf, _) :=
    circularBufferPutByte tty.inputMem (tty.inputBuffer terminal) ch
  { tty with
    inputMem := mem
    inputBuffer := Function.update tty.inputBuffer terminal buf }

/-- Drop the newest byte of a terminal's input buffer. -/
def unbufferByte (tty : Tty) (terminal : Nat) : Tty :=
  { tty with
    inputBuffer := Function.update tty.inputBuffer terminal
      (circularBufferRemoveEndByte (tty.inputBuffer terminal)).1 }

/-- How many times `keyboard_putc` erases on the screen for a backspace over
`last`. -/
def eraseCount (tty : Tty) (terminal : Nat) (last : UInt8) : Nat :=
  if last = charTab then tabEraseCount (tty.cursorLocation terminal).1 else 1

/-- `keyboard_putc`: the new state and the return value. -/
def keyboardPutc (tty : Tty) (terminal : Nat) (ch : UInt8) : Tty × Nat :=
  let len := circularBufferLen (tty.inputBuffer terminal)
  if ch = charBackspace then
    -- `peek_end_byte` finds nothing exactly in the empty buffer, for which the
    -- source returns before it peeks
    match circularBufferPeekEndByte tty.inputMem
        (tty.inputBuffer terminal) with
    | none => (tty, 0)
    | some last =>
        if last = charNewline then (tty, 0)
        else
          let tty := unbufferByte tty terminal
          (putcTimes tty terminal charBackspace
            (eraseCount tty terminal last), 1)
  else if ch = charNewline then
    if len ≥ keyboardBufferSize then (tty, 0)
    else
      let tty := putcInternal (bufferByte tty terminal ch) terminal charNewline
      ({ tty with
          newLineReady := Function.update tty.newLineReady terminal
            ((tty.newLineReady terminal + 1) % 256) }, 1)
  else if ch = charTab then
    if len < keyboardBufferSize - 1 then
      let tty := bufferByte tty terminal ch
      (putcTimes tty terminal charSpace
        (tabSpaceCount (tty.cursorLocation terminal).1), 1)
    else (tty, 0)
  else if ch > 0 then
    if len < keyboardBufferSize - 1 then
      (putcInternal (bufferByte tty terminal ch) terminal ch, 1)
    else (tty, 0)
  else (tty, 1)

/-- `circular_buffer_init` on a terminal's buffer and backing block. -/
def initInputBuffer (layout : Layout) (tty : Tty) (terminal : Nat) : Tty :=
  { tty with
    inputBuffer := Function.update tty.inputBuffer terminal
      (circularBufferInit (layout.inputBlock terminal) keyboardBufferSize) }

def resetTerminal (layout : Layout) (tty : Tty) (terminal : Nat) : Tty :=
  let tty := clearTerminal (initInputBuffer layout tty terminal) terminal
  let tty := { tty with
    newLineReady := Function.update tty.newLineReady terminal 0 }
  setHardwareCursor tty terminal 0 0

/-- One turn of the loop in `multiple_terminal_init`. -/
def initTerminal (layout : Layout) (tty : Tty) (terminal : Nat) : Tty :=
  resetTerminal layout
    { tty with
      videoMemory := Function.update tty.videoMemory terminal
        (getTerminalOutputBuffer layout tty terminal) } terminal

def multipleTerminalInit (layout : Layout) (tty : Tty) : Tty :=
  (List.range numTerminals).foldl (initTerminal layout) tty

/-- `terminal_open` and `terminal_close` on the terminal of the process. -/
def terminalOpen (layout : Layout) (tty : Tty) (terminal : Nat) : Tty :=
  clearTerminal (initInputBuffer layout tty terminal) terminal

def terminalClose (tty : Tty) (terminal : Nat) : Tty :=
  { tty with
    inputBuffer := Function.update tty.inputBuffer terminal
      (circularBufferClear (tty.inputBuffer terminal)) }

/-- A 32-bit signed argument seen as an unsigned number. -/
def toUint32 (value : Int) : Nat := (value % 2 ^ 32).toNat

/-- How many bytes `terminal_read` asks the buffer for: the first line or
`nbytes`, compared as unsigned numbers. -/
def readLength (tty : Tty) (terminal : Nat) (nbytes : Int) : Nat :=
  let maxLen := toUint32 (circularBufferFind tty.inputMem
    (tty.inputBuffer terminal) charNewline + 1)
  if maxLen < toUint32 nbytes then maxLen else toUint32 nbytes

/-- `terminal_read`: `none` while the reader still waits for the Enter key,
else the bytes stored to the caller's buffer and the new state. -/
def terminalRead (tty : Tty) (terminal : Nat) (nbytes : Int) :
    Option (List UInt8 × Tty) :=
  if tty.newLineReady terminal = 0 then none
  else
    let (bytes, buf) := circularBufferGet tty.inputMem
      (tty.inputBuffer terminal) (readLength tty terminal nbytes)
    some (bytes,
      { tty with
        inputBuffer := Function.update tty.inputBuffer terminal buf
        newLineReady := Function.update tty.newLineReady terminal
          ((tty.newLineReady terminal + 255) % 256) })

/-- `terminal_write`: every byte through `putc_internal`; a negative length
writes nothing. -/
def terminalWrite (tty : Tty) (terminal : Nat) (bytes : List UInt8) : Tty :=
  bytes.foldl (fun tty ch => putcInternal tty terminal ch) tty

/-- `switch_active_terminal`, for any `uint8_t` argument. -/
def switchActiveTerminal (layout : Layout) (tty : Tty) (newTerminal : Nat) :
    Tty :=
  if newTerminal < numTerminals then
    let oldTerminal := tty.activeTerminal
    let saved := tty.vram.copyUp (layout.outputBufferOf oldTerminal / 2)
      (videoPhysAddr / 2) (fourKbAligned / 2)
    let tty := { tty with vram := saved, activeTerminal := newTerminal }
    let tty := { tty with
      videoMemory := Function.update tty.videoMemory oldTerminal
        (getTerminalOutputBuffer layout tty oldTerminal) }
    let tty := { tty with
      videoMemory := Function.update tty.videoMemory newTerminal
        (getTerminalOutputBuffer layout tty newTerminal) }
    let shown := tty.vram.copyUp (videoPhysAddr / 2)
      (layout.outputBufferOf newTerminal / 2) (fourKbAligned / 2)
    let (x, y) := tty.cursorLocation newTerminal
    setHardwareCursor { tty with vram := shown } newTerminal x y
  else tty

end PsychOS
