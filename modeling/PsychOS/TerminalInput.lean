/-
The input side of the terminal driver.  Everything the driver draws leaves the
input buffers alone, so each operation is described by what it does to the
pending bytes of a terminal and to its newline counter.
-/
import PsychOS.Terminal

namespace PsychOS

/-- The part of the driver's state that drawing never touches. -/
structure InputSide where
  inputBuffer : Nat → CircularBuffer
  inputMem : Memory UInt8
  newLineReady : Nat → Nat

def Tty.inputSide (tty : Tty) : InputSide :=
  ⟨tty.inputBuffer, tty.inputMem, tty.newLineReady⟩

@[simp]
theorem setHardwareCursor_inputSide (tty : Tty) (terminal x y : Nat) :
    (setHardwareCursor tty terminal x y).inputSide = tty.inputSide := rfl

@[simp]
theorem videoBufferPutc_inputSide (tty : Tty) (terminal x y : Nat)
    (ch : UInt8) :
    (videoBufferPutc tty terminal x y ch).inputSide = tty.inputSide := rfl

@[simp]
theorem lineFeed_inputSide (tty : Tty) (terminal y : Nat) :
    (lineFeed tty terminal y).1.inputSide = tty.inputSide := by
  simp only [lineFeed]
  split
  · rfl
  · rfl

@[simp]
theorem putcInternal_inputSide (tty : Tty) (terminal : Nat) (ch : UInt8) :
    (putcInternal tty terminal ch).inputSide = tty.inputSide := by
  simp only [putcInternal]
  split
  · rfl
  · split
    · simp
    · split
      · simp
      · split
        · simp
        · simp

@[simp]
theorem putcTimes_inputSide (tty : Tty) (terminal : Nat) (ch : UInt8)
    (count : Nat) :
    (putcTimes tty terminal ch count).inputSide = tty.inputSide := by
  induction count generalizing tty with
  | zero => rfl
  | succ count ih => rw [putcTimes, ih, putcInternal_inputSide]

@[simp]
theorem clearTerminal_inputSide (tty : Tty) (terminal : Nat) :
    (clearTerminal tty terminal).inputSide = tty.inputSide := by
  simp only [clearTerminal, setHardwareCursor, Tty.inputSide]

/-- The bytes typed on a terminal and not yet read, oldest first. -/
def InputSide.pending (side : InputSide) (terminal : Nat) : List UInt8 :=
  (side.inputBuffer terminal).contents side.inputMem

def Tty.pending (tty : Tty) (terminal : Nat) : List UInt8 :=
  tty.inputSide.pending terminal

theorem Tty.pending_length (tty : Tty) (terminal : Nat) :
    (tty.pending terminal).length = (tty.inputBuffer terminal).currentLen :=
  CircularBuffer.contents_length _ _

/-- A valid ring on the block of `input_buffer_internal` that belongs to the
terminal. -/
structure InputRing (layout : Layout) (terminal : Nat)
    (buf : CircularBuffer) : Prop where
  valid : buf.Valid
  dataStart_eq : buf.dataStart = layout.inputBlock terminal
  maxLen_eq : buf.maxLen = keyboardBufferSize

def Tty.InputReady (layout : Layout) (tty : Tty) (terminal : Nat) : Prop :=
  InputRing layout terminal (tty.inputBuffer terminal)

theorem Tty.InputReady.pending_length_le {layout : Layout} {tty : Tty}
    {terminal : Nat} (hready : tty.InputReady layout terminal) :
    (tty.pending terminal).length ≤ keyboardBufferSize := by
  have hle := hready.valid.len_le
  rw [hready.maxLen_eq] at hle
  exact (tty.pending_length terminal).trans_le hle

theorem inputBlock_pos (layout : Layout) (terminal : Nat) :
    0 < layout.inputBlock terminal := by
  have hge := layout.inputBufferInternal_ge
  rw [Layout.inputBlock]
  omega

/-- Only the input side matters for the pending bytes and for readiness. -/
theorem Tty.pending_congr {left right : Tty}
    (hside : left.inputSide = right.inputSide) (terminal : Nat) :
    left.pending terminal = right.pending terminal := by
  rw [Tty.pending, Tty.pending, hside]

theorem Tty.InputReady.congr {layout : Layout} {left right : Tty}
    {terminal : Nat} (hready : left.InputReady layout terminal)
    (hside : right.inputSide = left.inputSide) :
    right.InputReady layout terminal := by
  have hbuf : right.inputBuffer = left.inputBuffer :=
    congrArg InputSide.inputBuffer hside
  rw [Tty.InputReady, hbuf]
  exact hready

theorem Tty.pending_setCounter (tty : Tty) (counter : Nat → Nat)
    (terminal : Nat) :
    Tty.pending { tty with newLineReady := counter } terminal =
      tty.pending terminal := rfl

theorem Tty.inputReady_setCounter (layout : Layout) (tty : Tty)
    (counter : Nat → Nat) (terminal : Nat) :
    Tty.InputReady layout { tty with newLineReady := counter } terminal ↔
      tty.InputReady layout terminal := Iff.rfl

theorem Tty.newLineReady_congr {left right : Tty}
    (hside : left.inputSide = right.inputSide) :
    left.newLineReady = right.newLineReady :=
  congrArg InputSide.newLineReady hside

section Buffering

variable {layout : Layout} {tty : Tty} {terminal : Nat}

theorem InputRing.of_sameBlock {buf other : CircularBuffer}
    (hring : InputRing layout terminal buf) (hvalid : other.Valid)
    (hsame : other.SameBlock buf) : InputRing layout terminal other :=
  ⟨hvalid, hsame.1.trans hring.dataStart_eq, hsame.2.trans hring.maxLen_eq⟩

/-- Replacing a terminal's ring by a valid ring on the same block keeps the
terminal ready. -/
theorem Tty.InputReady.update {other : Tty} {buf : CircularBuffer}
    (hready : tty.InputReady layout terminal) (hvalid : buf.Valid)
    (hsame : buf.SameBlock (tty.inputBuffer terminal))
    (hother : other.inputBuffer =
      Function.update tty.inputBuffer terminal buf) :
    other.InputReady layout terminal := by
  rw [Tty.InputReady, hother, Function.update_self]
  exact hready.of_sameBlock hvalid hsame

theorem bufferByte_ready (hready : tty.InputReady layout terminal)
    (ch : UInt8) : (bufferByte tty terminal ch).InputReady layout terminal :=
  hready.update (CircularBuffer.putByte_valid hready.valid)
    CircularBuffer.putByte_sameBlock rfl

theorem bufferByte_pending (hready : tty.InputReady layout terminal)
    (ch : UInt8)
    (hroom : (tty.pending terminal).length < keyboardBufferSize) :
    (bufferByte tty terminal ch).pending terminal =
      tty.pending terminal ++ [ch] := by
  have hspace : (tty.inputBuffer terminal).currentLen <
      (tty.inputBuffer terminal).maxLen := by
    rw [← tty.pending_length terminal]
    exact hroom.trans_eq hready.maxLen_eq.symm
  have hput := @CircularBuffer.putByte_contents tty.inputMem _ ch
    hready.valid hspace
  change ((Function.update tty.inputBuffer terminal
    (circularBufferPutByte tty.inputMem (tty.inputBuffer terminal) ch).2.1)
      terminal).contents
    (circularBufferPutByte tty.inputMem (tty.inputBuffer terminal) ch).1 = _
  rw [Function.update_self]
  exact hput

@[simp]
theorem bufferByte_newLineReady (ch : UInt8) :
    (bufferByte tty terminal ch).newLineReady = tty.newLineReady := rfl

theorem unbufferByte_ready (hready : tty.InputReady layout terminal) :
    (unbufferByte tty terminal).InputReady layout terminal :=
  hready.update (CircularBuffer.removeEndByte_valid hready.valid)
    CircularBuffer.removeEndByte_sameBlock rfl

theorem unbufferByte_pending :
    (unbufferByte tty terminal).pending terminal =
      (tty.pending terminal).dropLast := by
  change ((Function.update tty.inputBuffer terminal
    (circularBufferRemoveEndByte (tty.inputBuffer terminal)).1)
      terminal).contents tty.inputMem = _
  rw [Function.update_self]
  exact CircularBuffer.removeEndByte_contents

theorem initInputBuffer_ready (layout : Layout) (tty : Tty)
    (terminal : Nat) :
    (initInputBuffer layout tty terminal).InputReady layout terminal := by
  simp only [Tty.InputReady, initInputBuffer, Function.update_self]
  exact ⟨CircularBuffer.init_valid (inputBlock_pos layout terminal)
    (by decide), rfl, rfl⟩

theorem initInputBuffer_pending (layout : Layout) (tty : Tty)
    (terminal : Nat) :
    (initInputBuffer layout tty terminal).pending terminal = [] := by
  change ((Function.update tty.inputBuffer terminal _) terminal).contents _ = _
  rw [Function.update_self, CircularBuffer.init_contents]

end Buffering

/-- What an accepted key does to the pending bytes; `none` when the key is
refused.  A printable key leaves one byte free for the newline. -/
def keyEffect (pending : List UInt8) (ch : UInt8) : Option (List UInt8) :=
  if ch = charBackspace then
    match pending.getLast? with
    | none => none
    | some last => if last = charNewline then none else some pending.dropLast
  else if ch = charNewline then
    if pending.length ≥ keyboardBufferSize then none
    else some (pending ++ [ch])
  else if ch = 0 then some pending
  else if pending.length < keyboardBufferSize - 1 then some (pending ++ [ch])
  else none

theorem keyEffect_backspace {pending : List UInt8} {last : UInt8}
    (hlast : pending.getLast? = some last) (hnl : last ≠ charNewline) :
    keyEffect pending charBackspace = some pending.dropLast := by
  simp only [keyEffect, hlast, hnl, ↓reduceIte]

theorem keyEffect_newline {pending : List UInt8}
    (hroom : pending.length < keyboardBufferSize) :
    keyEffect pending charNewline = some (pending ++ [charNewline]) := by
  have hne : charNewline ≠ charBackspace := by decide
  have hnot : ¬ pending.length ≥ keyboardBufferSize := Nat.not_le_of_lt hroom
  simp only [keyEffect, hne, hnot, ↓reduceIte]

theorem keyEffect_printable {pending : List UInt8} {ch : UInt8}
    (hback : ch ≠ charBackspace) (hnl : ch ≠ charNewline) (hzero : ch ≠ 0)
    (hroom : pending.length < keyboardBufferSize - 1) :
    keyEffect pending ch = some (pending ++ [ch]) := by
  simp only [keyEffect, hback, hnl, hzero, hroom, ↓reduceIte]

/-- The three ways a non-zero key can be accepted. -/
theorem keyEffect_accepted {pending : List UInt8} {ch : UInt8}
    (hzero : ch ≠ 0) (hsome : (keyEffect pending ch).isSome) :
    (ch = charBackspace ∧ ∃ last, pending.getLast? = some last ∧
        last ≠ charNewline) ∨
      (ch = charNewline ∧ pending.length < keyboardBufferSize) ∨
      (ch ≠ charBackspace ∧ ch ≠ charNewline ∧
        pending.length < keyboardBufferSize - 1) := by
  unfold keyEffect at hsome
  by_cases hback : ch = charBackspace
  · refine Or.inl ⟨hback, ?_⟩
    simp only [hback, ↓reduceIte] at hsome
    cases hlast : pending.getLast? with
    | none => simp [hlast] at hsome
    | some last =>
        refine ⟨last, rfl, ?_⟩
        intro hnl
        simp [hlast, hnl] at hsome
  · by_cases hnl : ch = charNewline
    · refine Or.inr (Or.inl ⟨hnl, ?_⟩)
      by_contra hfull
      simp only [hback, ↓reduceIte] at hsome
      simp [hnl, Nat.le_of_not_lt hfull] at hsome
    · refine Or.inr (Or.inr ⟨hback, hnl, ?_⟩)
      by_contra hfull
      simp only [hback, hnl, hzero, hfull, ↓reduceIte] at hsome
      simp at hsome

/-- The specification of `keyboard_putc` on the input side. -/
structure KeySpec (layout : Layout) (tty : Tty) (terminal : Nat)
    (ch : UInt8) (next : Tty) (ret : Nat) : Prop where
  ready : next.InputReady layout terminal
  ret_eq : ret = if (keyEffect (tty.pending terminal) ch).isSome then 1 else 0
  pending_eq : next.pending terminal =
    (keyEffect (tty.pending terminal) ch).getD (tty.pending terminal)
  newLineReady_eq : next.newLineReady terminal =
    if ch = charNewline ∧ (keyEffect (tty.pending terminal) ch).isSome then
      (tty.newLineReady terminal + 1) % 256
    else tty.newLineReady terminal

section Key

variable {layout : Layout} {tty : Tty} {terminal : Nat}

theorem keySpec_refused {ch : UInt8}
    (hready : tty.InputReady layout terminal)
    (hnone : keyEffect (tty.pending terminal) ch = none) :
    KeySpec layout tty terminal ch tty 0 where
  ready := hready
  ret_eq := by simp [hnone]
  pending_eq := by simp [hnone]
  newLineReady_eq := by simp [hnone]

theorem keyboardPutc_backspace (hready : tty.InputReady layout terminal) :
    KeySpec layout tty terminal charBackspace
      (keyboardPutc tty terminal charBackspace).1
      (keyboardPutc tty terminal charBackspace).2 := by
  have hpeek : circularBufferPeekEndByte tty.inputMem
      (tty.inputBuffer terminal) = (tty.pending terminal).getLast? :=
    CircularBuffer.peekEndByte_eq_getLast? hready.valid
  simp only [keyboardPutc, ↓reduceIte, hpeek]
  cases hlast : (tty.pending terminal).getLast? with
  | none => exact keySpec_refused hready (by simp [keyEffect, hlast])
  | some last =>
      by_cases hnl : last = charNewline
      · simp only [hnl, ↓reduceIte]
        exact keySpec_refused hready (by simp [keyEffect, hlast, hnl])
      · have heffect := keyEffect_backspace hlast hnl
        simp only [hnl, ↓reduceIte]
        refine ⟨(unbufferByte_ready hready).congr (putcTimes_inputSide _ _ _ _),
          by simp [heffect], ?_, ?_⟩
        · rw [Tty.pending_congr (putcTimes_inputSide _ _ _ _),
            unbufferByte_pending, heffect]
          rfl
        · rw [Tty.newLineReady_congr (putcTimes_inputSide _ _ _ _)]
          rfl

theorem keyboardPutc_newline (hready : tty.InputReady layout terminal) :
    KeySpec layout tty terminal charNewline
      (keyboardPutc tty terminal charNewline).1
      (keyboardPutc tty terminal charNewline).2 := by
  have hlen : circularBufferLen (tty.inputBuffer terminal) =
      (tty.pending terminal).length := (tty.pending_length terminal).symm
  have hne : charNewline ≠ charBackspace := by decide
  simp only [keyboardPutc, hne, ↓reduceIte, hlen]
  by_cases hfull : (tty.pending terminal).length ≥ keyboardBufferSize
  · simp only [hfull, ↓reduceIte]
    exact keySpec_refused hready (by simp [keyEffect, hne, hfull])
  · have heffect := keyEffect_newline (Nat.lt_of_not_le hfull)
    have hside := putcInternal_inputSide
      (bufferByte tty terminal charNewline) terminal charNewline
    simp only [hfull, ↓reduceIte]
    refine ⟨?_, by simp [heffect], ?_, ?_⟩
    · rw [Tty.inputReady_setCounter]
      exact (bufferByte_ready hready charNewline).congr hside
    · rw [Tty.pending_setCounter, Tty.pending_congr hside,
        bufferByte_pending hready charNewline (Nat.lt_of_not_le hfull),
        heffect]
      rfl
    · simp only [Tty.newLineReady_congr hside, bufferByte_newLineReady,
        Function.update_self, heffect, Option.isSome_some, and_self,
        ↓reduceIte]

/-- The two branches for tabs and printable characters: buffer the byte if two
bytes are free, draw something, and count nothing. -/
theorem keySpec_buffered {ch : UInt8} {next : Tty}
    (hready : tty.InputReady layout terminal)
    (hback : ch ≠ charBackspace) (hnl : ch ≠ charNewline) (hzero : ch ≠ 0)
    (hroom : (tty.pending terminal).length < keyboardBufferSize - 1)
    (hnext : next.inputSide = (bufferByte tty terminal ch).inputSide) :
    KeySpec layout tty terminal ch next 1 := by
  have heffect := keyEffect_printable hback hnl hzero hroom
  refine ⟨(bufferByte_ready hready ch).congr hnext, by simp [heffect], ?_, ?_⟩
  · rw [Tty.pending_congr hnext, heffect]
    exact bufferByte_pending hready ch (Nat.lt_of_lt_of_le hroom (by decide))
  · simp [Tty.newLineReady_congr hnext, hnl]

theorem keyboardPutc_other {ch : UInt8}
    (hready : tty.InputReady layout terminal)
    (hback : ch ≠ charBackspace) (hnl : ch ≠ charNewline) :
    KeySpec layout tty terminal ch
      (keyboardPutc tty terminal ch).1 (keyboardPutc tty terminal ch).2 := by
  have hlen : circularBufferLen (tty.inputBuffer terminal) =
      (tty.pending terminal).length := (tty.pending_length terminal).symm
  simp only [keyboardPutc, hback, hnl, ↓reduceIte, hlen]
  by_cases hzero : ch = 0
  · subst hzero
    have heffect : keyEffect (tty.pending terminal) 0 =
        some (tty.pending terminal) := rfl
    have htab : (0 : UInt8) ≠ charTab := by decide
    have hpos : ¬ (0 : UInt8) > 0 := by decide
    simp only [htab, hpos, ↓reduceIte]
    refine ⟨hready, by simp [heffect], by simp [heffect], ?_⟩
    simp [hnl]
  · have hpos : ch > 0 := UInt8.pos_iff_ne_zero.mpr hzero
    by_cases hroom : (tty.pending terminal).length < keyboardBufferSize - 1
    · simp only [hroom, hpos, ↓reduceIte]
      split
      · exact keySpec_buffered hready hback hnl hzero hroom
          (putcTimes_inputSide _ _ _ _)
      · exact keySpec_buffered hready hback hnl hzero hroom
          (putcInternal_inputSide _ _ _)
    · have hnone : keyEffect (tty.pending terminal) ch = none := by
        simp only [keyEffect, hback, hnl, hzero, hroom, ↓reduceIte]
      simp only [hroom, hpos, ↓reduceIte]
      split
      · exact keySpec_refused hready hnone
      · exact keySpec_refused hready hnone

/-- `keyboard_putc` meets its specification for every key. -/
theorem keyboardPutc_spec (hready : tty.InputReady layout terminal)
    (ch : UInt8) :
    KeySpec layout tty terminal ch
      (keyboardPutc tty terminal ch).1 (keyboardPutc tty terminal ch).2 := by
  by_cases hback : ch = charBackspace
  · rw [hback]
    exact keyboardPutc_backspace hready
  · by_cases hnl : ch = charNewline
    · rw [hnl]
      exact keyboardPutc_newline hready
    · exact keyboardPutc_other hready hback hnl

/-- What a key can do to the pending bytes and the counter: nothing, erase,
complete a line, or add to one. -/
theorem keyboardPutc_cases (hready : tty.InputReady layout terminal)
    {ch : UInt8} {next : Tty}
    (hnext : (keyboardPutc tty terminal ch).1 = next) :
    (next.pending terminal = tty.pending terminal ∧
        next.newLineReady terminal = tty.newLineReady terminal) ∨
      (∃ last, (tty.pending terminal).getLast? = some last ∧
        last ≠ charNewline ∧
        next.pending terminal = (tty.pending terminal).dropLast ∧
        next.newLineReady terminal = tty.newLineReady terminal) ∨
      ((tty.pending terminal).length < keyboardBufferSize ∧
        next.pending terminal = tty.pending terminal ++ [charNewline] ∧
        next.newLineReady terminal =
          (tty.newLineReady terminal + 1) % 256) ∨
      (ch ≠ charNewline ∧
        (tty.pending terminal).length < keyboardBufferSize - 1 ∧
        next.pending terminal = tty.pending terminal ++ [ch] ∧
        next.newLineReady terminal = tty.newLineReady terminal) := by
  have hspec := keyboardPutc_spec hready ch
  rw [hnext] at hspec
  have hpending := hspec.pending_eq
  have hcounter := hspec.newLineReady_eq
  by_cases hzero : ch = 0
  · subst hzero
    exact Or.inl ⟨hpending, hcounter⟩
  · by_cases hsome : (keyEffect (tty.pending terminal) ch).isSome
    · rcases keyEffect_accepted hzero hsome with
        ⟨rfl, last, hlast, hnl⟩ | ⟨rfl, hroom⟩ | ⟨hback, hnl, hroom⟩
      · have hne : charBackspace ≠ charNewline := by decide
        rw [keyEffect_backspace hlast hnl] at hpending
        rw [if_neg fun h => hne h.1] at hcounter
        exact Or.inr (Or.inl ⟨last, hlast, hnl, hpending, hcounter⟩)
      · rw [keyEffect_newline hroom] at hpending
        rw [if_pos ⟨rfl, hsome⟩] at hcounter
        exact Or.inr (Or.inr (Or.inl ⟨hroom, hpending, hcounter⟩))
      · rw [keyEffect_printable hback hnl hzero hroom] at hpending
        rw [if_neg fun h => hnl h.1] at hcounter
        exact Or.inr (Or.inr (Or.inr ⟨hnl, hroom, hpending, hcounter⟩))
    · rw [Option.not_isSome_iff_eq_none.mp hsome] at hpending
      rw [if_neg fun h => hsome h.2] at hcounter
      exact Or.inl ⟨hpending, hcounter⟩

end Key

/-- The length of the first complete line, its newline included; 0 when there
is none. -/
def lineLength (pending : List UInt8) : Nat :=
  match pending.idxOf? charNewline with
  | some i => i + 1
  | none => 0

theorem toUint32_of_nonneg {value : Int} (hlo : 0 ≤ value)
    (hhi : value < 2 ^ 32) : toUint32 value = value.toNat := by
  rw [toUint32, Int.emod_eq_of_lt hlo hhi]

theorem toUint32_natCast {value : Nat} (hlt : value < 2 ^ 32) :
    toUint32 value = value := by
  rw [toUint32_of_nonneg (Int.natCast_nonneg value) (by exact_mod_cast hlt),
    Int.toNat_natCast]

theorem lineLength_append_newline {line : List UInt8}
    (hline : charNewline ∉ line) (rest : List UInt8) :
    lineLength (line ++ charNewline :: rest) = line.length + 1 := by
  have hidx : (line ++ charNewline :: rest).idxOf? charNewline =
      some line.length := by
    induction line with
    | nil => simp [List.idxOf?_cons]
    | cons head tail ih =>
        simp only [List.mem_cons, not_or] at hline
        have hhead : head ≠ charNewline := Ne.symm hline.1
        simp [List.idxOf?_cons, hhead, ih hline.2]
  simp only [lineLength, hidx]

theorem lineLength_of_not_mem {pending : List UInt8}
    (hnone : charNewline ∉ pending) : lineLength pending = 0 := by
  have hidx : pending.idxOf? charNewline = none :=
    List.idxOf?_eq_none_iff.mpr hnone
  simp only [lineLength, hidx]

theorem lineLength_le_length (pending : List UInt8) :
    lineLength pending ≤ pending.length := by
  by_cases hmem : charNewline ∈ pending
  · obtain ⟨line, rest, rfl, hline⟩ := List.eq_append_cons_of_mem hmem
    rw [lineLength_append_newline hline]
    simp
  · rw [lineLength_of_not_mem hmem]
    exact Nat.zero_le _

section Read

variable {layout : Layout} {tty : Tty} {terminal : Nat}

theorem readLength_eq (hready : tty.InputReady layout terminal)
    (nbytes : Int) :
    readLength tty terminal nbytes =
      min (lineLength (tty.pending terminal)) (toUint32 nbytes) := by
  have hfind : circularBufferFind tty.inputMem (tty.inputBuffer terminal)
      charNewline = CircularBuffer.indexOrMinusOne (tty.pending terminal)
        charNewline 0 := CircularBuffer.find_eq hready.valid charNewline
  have hline : toUint32 (CircularBuffer.indexOrMinusOne
      (tty.pending terminal) charNewline 0 + 1) =
      lineLength (tty.pending terminal) := by
    have hle := lineLength_le_length (tty.pending terminal)
    have hbound := hready.pending_length_le
    unfold lineLength at hle ⊢
    unfold CircularBuffer.indexOrMinusOne
    cases hidx : (tty.pending terminal).idxOf? charNewline with
    | none => rfl
    | some i =>
        simp only [hidx] at hle
        have hsmall : i + 1 < 2 ^ 32 :=
          (hle.trans hbound).trans_lt (by decide)
        simpa using toUint32_natCast hsmall
  simp only [readLength, hfind, hline]
  split <;> omega

theorem terminalRead_eq_none_iff (nbytes : Int) :
    terminalRead tty terminal nbytes = none ↔
      tty.newLineReady terminal = 0 := by
  unfold terminalRead
  split
  · simp [*]
  · simp [*]

/-- The specification of a completed `terminal_read`: it takes bytes off the
front of the pending input, at most the first line, and counts one line as
read. -/
structure ReadSpec (layout : Layout) (tty : Tty) (terminal : Nat)
    (nbytes : Int) (bytes : List UInt8) (next : Tty) : Prop where
  counter_ne_zero : tty.newLineReady terminal ≠ 0
  ready : next.InputReady layout terminal
  bytes_eq : bytes = (tty.pending terminal).take
    (min (lineLength (tty.pending terminal)) (toUint32 nbytes))
  pending_eq : next.pending terminal = (tty.pending terminal).drop
    (min (lineLength (tty.pending terminal)) (toUint32 nbytes))
  counter_eq : next.newLineReady terminal =
    (tty.newLineReady terminal + 255) % 256

theorem terminalRead_spec (hready : tty.InputReady layout terminal)
    {nbytes : Int} {bytes : List UInt8} {next : Tty}
    (hread : terminalRead tty terminal nbytes = some (bytes, next)) :
    ReadSpec layout tty terminal nbytes bytes next := by
  have hline : tty.newLineReady terminal ≠ 0 := by
    intro hzero
    rw [(terminalRead_eq_none_iff nbytes).mpr hzero] at hread
    contradiction
  rw [terminalRead, if_neg hline] at hread
  obtain ⟨rfl, rfl⟩ := Prod.mk.inj (Option.some.inj hread)
  refine ⟨hline, ?_, ?_, ?_, ?_⟩
  · exact hready.update (CircularBuffer.get_valid hready.valid _)
      (CircularBuffer.get_sameBlock hready.valid _) rfl
  · rw [← readLength_eq hready]
    exact CircularBuffer.get_bytes hready.valid _
  · rw [← readLength_eq hready]
    change ((Function.update tty.inputBuffer terminal _) terminal).contents
      tty.inputMem = _
    rw [Function.update_self]
    exact CircularBuffer.get_contents hready.valid _
  · exact Function.update_self _ _ _

end Read

section Reset

theorem resetTerminal_inputSide (layout : Layout) (tty : Tty)
    (terminal : Nat) :
    (resetTerminal layout tty terminal).inputSide =
      { (initInputBuffer layout tty terminal).inputSide with
        newLineReady := Function.update tty.newLineReady terminal 0 } := by
  have hclear := clearTerminal_inputSide
    (initInputBuffer layout tty terminal) terminal
  simp only [resetTerminal, setHardwareCursor_inputSide]
  simp only [Tty.inputSide, InputSide.mk.injEq] at hclear ⊢
  obtain ⟨hbuf, hmem, hready⟩ := hclear
  refine ⟨hbuf, hmem, ?_⟩
  rw [hready]
  rfl

theorem resetTerminal_inputBuffer (layout : Layout) (tty : Tty)
    (terminal : Nat) :
    (resetTerminal layout tty terminal).inputBuffer =
      Function.update tty.inputBuffer terminal
        (circularBufferInit (layout.inputBlock terminal) keyboardBufferSize) :=
  congrArg InputSide.inputBuffer (resetTerminal_inputSide layout tty terminal)

theorem resetTerminal_counters (layout : Layout) (tty : Tty)
    (terminal : Nat) :
    (resetTerminal layout tty terminal).newLineReady =
      Function.update tty.newLineReady terminal 0 :=
  congrArg InputSide.newLineReady (resetTerminal_inputSide layout tty terminal)

theorem resetTerminal_ready (layout : Layout) (tty : Tty) (terminal : Nat) :
    (resetTerminal layout tty terminal).InputReady layout terminal := by
  rw [Tty.InputReady, resetTerminal_inputBuffer]
  exact initInputBuffer_ready layout tty terminal

theorem resetTerminal_pending (layout : Layout) (tty : Tty)
    (terminal : Nat) :
    (resetTerminal layout tty terminal).pending terminal = [] := by
  rw [Tty.pending, resetTerminal_inputSide]
  exact initInputBuffer_pending layout tty terminal

theorem resetTerminal_newLineReady (layout : Layout) (tty : Tty)
    (terminal : Nat) :
    (resetTerminal layout tty terminal).newLineReady terminal = 0 := by
  rw [resetTerminal_counters, Function.update_self]

theorem terminalOpen_ready (layout : Layout) (tty : Tty) (terminal : Nat) :
    (terminalOpen layout tty terminal).InputReady layout terminal :=
  (initInputBuffer_ready layout tty terminal).congr
    (clearTerminal_inputSide _ _)

theorem terminalOpen_pending (layout : Layout) (tty : Tty)
    (terminal : Nat) :
    (terminalOpen layout tty terminal).pending terminal = [] := by
  rw [terminalOpen, Tty.pending_congr (clearTerminal_inputSide _ _),
    initInputBuffer_pending]

theorem terminalOpen_newLineReady (layout : Layout) (tty : Tty)
    (terminal : Nat) :
    (terminalOpen layout tty terminal).newLineReady = tty.newLineReady := by
  rw [terminalOpen, Tty.newLineReady_congr (clearTerminal_inputSide _ _)]
  rfl

theorem terminalClose_ready {layout : Layout} {tty : Tty} {terminal : Nat}
    (hready : tty.InputReady layout terminal) :
    (terminalClose tty terminal).InputReady layout terminal :=
  hready.update (CircularBuffer.clear_valid hready.valid)
    (CircularBuffer.clear_sameBlock _) rfl

theorem terminalClose_pending (tty : Tty) (terminal : Nat) :
    (terminalClose tty terminal).pending terminal = [] := by
  change ((Function.update tty.inputBuffer terminal _) terminal).contents _ = _
  rw [Function.update_self, CircularBuffer.clear_contents]

end Reset

end PsychOS
