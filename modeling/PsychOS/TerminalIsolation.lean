/-
Isolation of the three terminals.  Every operation refines the same operation
of one ideal terminal, switching refines nothing happening at all, and so what
a terminal shows and holds depends on its own operations only.
-/
import PsychOS.Lib.Run
import PsychOS.TerminalScreen

namespace PsychOS

section Input

variable {layout : Layout} {tty : Tty} {terminal : Nat}

/-- A new ring on the terminal's own block of input memory. -/
theorem refines_inputBuffer (hgood : tty.Good layout) (mem : Memory UInt8)
    {buf : CircularBuffer} (hring : InputRing layout terminal buf)
    (hframe : ∀ a, (a < layout.inputBlock terminal ∨
      layout.inputBlock terminal + keyboardBufferSize ≤ a) →
        mem a = tty.inputMem a) :
    Refines layout tty terminal
      { tty with
        inputMem := mem
        inputBuffer := Function.update tty.inputBuffer terminal buf }
      { tty.ideal layout terminal with pending := buf.contents mem } where
  good := by
    refine ⟨hgood.active_lt, hgood.videoMemory_eq, hgood.cursor_x,
      hgood.cursor_y, hgood.hardwareCursor_eq, ?_⟩
    intro t ht'
    simp only [Tty.InputReady, Function.update_apply]
    split
    · subst t
      exact hring
    · exact hgood.ready t ht'
  ideal_eq := by
    have hbuf : Function.update tty.inputBuffer terminal buf terminal = buf :=
      Function.update_self _ _ _
    simp only [Tty.ideal, Tty.pending, InputSide.pending, Tty.inputSide, hbuf]
    rfl
  others := by
    intro t ht' hne
    have hready := hgood.ready t ht'
    have hcontents : (tty.inputBuffer t).contents mem =
        (tty.inputBuffer t).contents tty.inputMem := by
      apply hready.valid.contents_congr
      intro a hlo hhi
      rw [hready.dataStart_eq] at hlo hhi
      rw [hready.maxLen_eq] at hhi
      apply hframe
      simp only [Layout.inputBlock, keyboardBufferSize] at hlo hhi ⊢
      omega
    have hbuf : Function.update tty.inputBuffer terminal buf t =
        tty.inputBuffer t := Function.update_of_ne hne _ _
    simp only [Tty.ideal, Tty.pending, InputSide.pending, Tty.inputSide, hbuf,
      hcontents]
    rfl

theorem refines_setCounter (hgood : tty.Good layout) (value : Nat) :
    Refines layout tty terminal
      { tty with
        newLineReady := Function.update tty.newLineReady terminal value }
      { tty.ideal layout terminal with newLineReady := value } where
  good := ⟨hgood.active_lt, hgood.videoMemory_eq, hgood.cursor_x,
    hgood.cursor_y, hgood.hardwareCursor_eq, hgood.ready⟩
  ideal_eq := by
    have hvalue : Function.update tty.newLineReady terminal value terminal =
        value := Function.update_self _ _ _
    simp only [Tty.ideal, hvalue]
    rfl
  others := by
    intro t _ hne
    have hvalue : Function.update tty.newLineReady terminal value t =
        tty.newLineReady t := Function.update_of_ne hne _ _
    simp only [Tty.ideal, hvalue]
    rfl

theorem refines_bufferByte (hgood : tty.Good layout)
    (ht : terminal < numTerminals) (ch : UInt8)
    (hroom : (tty.pending terminal).length < keyboardBufferSize) :
    Refines layout tty terminal (bufferByte tty terminal ch)
      { tty.ideal layout terminal with
        pending := tty.pending terminal ++ [ch] } := by
  have hready := hgood.ready terminal ht
  have hring := hready.of_sameBlock
    (@CircularBuffer.putByte_valid tty.inputMem _ ch hready.valid)
    CircularBuffer.putByte_sameBlock
  have hrefines := refines_inputBuffer hgood
    (circularBufferPutByte tty.inputMem (tty.inputBuffer terminal) ch).1
    hring (by
    intro a houtside
    apply CircularBuffer.putByte_frame hready.valid
    rw [hready.dataStart_eq, hready.maxLen_eq]
    exact houtside)
  have hcontents := congrArg IdealTerminal.pending hrefines.ideal_eq
  change (bufferByte tty terminal ch).pending terminal = _ at hcontents
  rw [← bufferByte_pending hready ch hroom, hcontents]
  exact hrefines

theorem refines_unbufferByte (hgood : tty.Good layout)
    (ht : terminal < numTerminals) :
    Refines layout tty terminal (unbufferByte tty terminal)
      { tty.ideal layout terminal with
        pending := (tty.pending terminal).dropLast } := by
  have hready := hgood.ready terminal ht
  have hring := hready.of_sameBlock
    (CircularBuffer.removeEndByte_valid hready.valid)
    CircularBuffer.removeEndByte_sameBlock
  have hrefines := refines_inputBuffer hgood tty.inputMem hring
    (fun _ _ => rfl)
  rw [CircularBuffer.removeEndByte_contents] at hrefines
  exact hrefines

theorem refines_initInputBuffer (hgood : tty.Good layout) :
    Refines layout tty terminal (initInputBuffer layout tty terminal)
      { tty.ideal layout terminal with pending := [] } := by
  have hring : InputRing layout terminal
      (circularBufferInit (layout.inputBlock terminal) keyboardBufferSize) :=
    ⟨CircularBuffer.init_valid (inputBlock_pos layout terminal) (by decide),
      rfl, rfl⟩
  have hrefines := refines_inputBuffer hgood tty.inputMem hring
    (fun _ _ => rfl)
  rw [CircularBuffer.init_contents] at hrefines
  exact hrefines

theorem refines_terminalRead (hgood : tty.Good layout)
    (ht : terminal < numTerminals) {nbytes : Int} {bytes : List UInt8}
    {next : Tty}
    (hread : terminalRead tty terminal nbytes = some (bytes, next)) :
    ∃ term, (tty.ideal layout terminal).read nbytes = some term ∧
      Refines layout tty terminal next term := by
  have hready := hgood.ready terminal ht
  have hspec := terminalRead_spec hready hread
  have hline : (tty.ideal layout terminal).newLineReady ≠ 0 :=
    hspec.counter_ne_zero
  refine ⟨_, if_neg hline, ?_⟩
  have hring := hready.of_sameBlock
    (@CircularBuffer.get_valid tty.inputMem _ hready.valid
      (readLength tty terminal nbytes))
    (CircularBuffer.get_sameBlock hready.valid _)
  have htaken := refines_inputBuffer hgood tty.inputMem hring
    (fun _ _ => rfl)
  rw [CircularBuffer.get_contents hready.valid, readLength_eq hready]
    at htaken
  have hcounted := @refines_setCounter layout _ terminal htaken.good
    ((tty.newLineReady terminal + 255) % 256)
  rw [htaken.ideal_eq] at hcounted
  rw [terminalRead, if_neg hspec.counter_ne_zero, readLength_eq hready]
    at hread
  obtain ⟨-, rfl⟩ := Prod.mk.inj (Option.some.inj hread)
  exact htaken.trans hcounted

theorem refines_resetTerminal (hgood : tty.Good layout)
    (ht : terminal < numTerminals) :
    Refines layout tty terminal (resetTerminal layout tty terminal)
      (tty.ideal layout terminal).reset := by
  have hinit := @refines_initInputBuffer layout tty terminal hgood
  have hclear := refines_clearTerminal hinit.good ht
  rw [hinit.ideal_eq] at hclear
  have hcount := @refines_setCounter layout _ terminal hclear.good 0
  rw [hclear.ideal_eq] at hcount
  have hcursor := @refines_setHardwareCursor layout _ terminal hcount.good
    0 0 (by decide) (by decide)
  rw [hcount.ideal_eq] at hcursor
  exact ((hinit.trans hclear).trans hcount).trans hcursor

end Input

/-- None of the next `count` erasures starts at the top left cell. -/
def EraseSafe (tty : Tty) (terminal : Nat) : Nat → Prop
  | 0 => True
  | count + 1 =>
      tty.cursorLocation terminal ≠ (0, 0) ∧
        EraseSafe (putcInternal tty terminal charBackspace) terminal count

def IdealTerminal.EraseSafe (term : IdealTerminal) : Nat → Prop
  | 0 => True
  | count + 1 =>
      term.cursor ≠ (0, 0) ∧ (term.putc charBackspace).EraseSafe count

section Repeat

variable {layout : Layout} {tty : Tty} {terminal : Nat}

theorem eraseSafe_iff (hgood : tty.Good layout)
    (ht : terminal < numTerminals) (count : Nat) :
    EraseSafe tty terminal count ↔
      (tty.ideal layout terminal).EraseSafe count := by
  induction count generalizing tty with
  | zero => exact Iff.rfl
  | succ count ih =>
      rw [EraseSafe, IdealTerminal.EraseSafe]
      apply and_congr_right
      intro horigin
      have hput := refines_putcInternal_backspace hgood ht horigin
      rw [ih hput.good, hput.ideal_eq]

/-- Where the cursor is decides whether erasing is safe. -/
theorem IdealTerminal.eraseSafe_congr {left right : IdealTerminal}
    (hcursor : left.cursor = right.cursor) (count : Nat) :
    left.EraseSafe count ↔ right.EraseSafe count := by
  induction count generalizing left right with
  | zero => exact Iff.rfl
  | succ count ih =>
      have hnext : (left.putc charBackspace).cursor =
          (right.putc charBackspace).cursor := by
        simp only [putc, ↓reduceIte, hcursor]
      rw [IdealTerminal.EraseSafe, IdealTerminal.EraseSafe, hcursor, ih hnext]

theorem refines_putcTimes (hgood : tty.Good layout)
    (ht : terminal < numTerminals) {ch : UInt8} {count : Nat}
    (hsafe : ch = charBackspace → EraseSafe tty terminal count) :
    Refines layout tty terminal (putcTimes tty terminal ch count)
      ((tty.ideal layout terminal).putcTimes ch count) := by
  induction count generalizing tty with
  | zero => exact ⟨hgood, rfl, fun _ _ _ => rfl⟩
  | succ count ih =>
      have hput := refines_putcInternal hgood ht
        (fun hback => (hsafe hback).1)
      have hrest := ih hput.good (by
        intro hback
        have htail := (hsafe hback).2
        rwa [← hback] at htail)
      rw [hput.ideal_eq] at hrest
      exact hput.trans hrest

end Repeat

/-- No erasure a key causes starts at the top left cell. -/
def KeyEraseSafe (tty : Tty) (terminal : Nat) (ch : UInt8) : Prop :=
  ch = charBackspace → ∀ last,
    circularBufferPeekEndByte tty.inputMem (tty.inputBuffer terminal) =
      some last → last ≠ charNewline →
    EraseSafe tty terminal (eraseCount tty terminal last)

def IdealTerminal.KeyEraseSafe (term : IdealTerminal) (ch : UInt8) : Prop :=
  ch = charBackspace → ∀ last, term.pending.getLast? = some last →
    last ≠ charNewline → term.EraseSafe (term.eraseCount last)

section Key

variable {layout : Layout} {tty : Tty} {terminal : Nat}

theorem Tty.Good.peekEndByte_eq (hgood : tty.Good layout)
    (ht : terminal < numTerminals) :
    circularBufferPeekEndByte tty.inputMem (tty.inputBuffer terminal) =
      (tty.pending terminal).getLast? :=
  CircularBuffer.peekEndByte_eq_getLast? (hgood.ready terminal ht).valid

theorem keyEraseSafe_iff (hgood : tty.Good layout)
    (ht : terminal < numTerminals) (ch : UInt8) :
    KeyEraseSafe tty terminal ch ↔
      (tty.ideal layout terminal).KeyEraseSafe ch := by
  simp only [KeyEraseSafe, IdealTerminal.KeyEraseSafe,
    hgood.peekEndByte_eq ht, eraseSafe_iff hgood ht]
  exact Iff.rfl

/-- Taking the last byte out of the buffer does not move the cursor. -/
theorem eraseSafe_unbufferByte (hgood : tty.Good layout)
    (ht : terminal < numTerminals) (count : Nat) :
    EraseSafe (unbufferByte tty terminal) terminal count ↔
      EraseSafe tty terminal count := by
  have hunbuffer := refines_unbufferByte hgood ht
  rw [eraseSafe_iff hgood ht, eraseSafe_iff hunbuffer.good ht,
    hunbuffer.ideal_eq]
  apply IdealTerminal.eraseSafe_congr
  rfl

/-- A refused key changes nothing. -/
theorem refines_refused (hgood : tty.Good layout) {ch : UInt8}
    (hnone : keyEffect (tty.pending terminal) ch = none) :
    Refines layout tty terminal tty
      ((tty.ideal layout terminal).key ch) := by
  have hsame : (tty.ideal layout terminal).key ch =
      tty.ideal layout terminal := by
    have hpending : (tty.ideal layout terminal).pending =
        tty.pending terminal := rfl
    simp only [IdealTerminal.key, hpending, hnone]
  rw [hsame]
  exact ⟨hgood, rfl, fun _ _ _ => rfl⟩

theorem refines_keyboardPutc_backspace (hgood : tty.Good layout)
    (ht : terminal < numTerminals)
    (hsafe : KeyEraseSafe tty terminal charBackspace) :
    Refines layout tty terminal (keyboardPutc tty terminal charBackspace).1
      ((tty.ideal layout terminal).key charBackspace) := by
  have hpeek := hgood.peekEndByte_eq ht
  simp only [keyboardPutc, ↓reduceIte, hpeek]
  cases hlast : (tty.pending terminal).getLast? with
  | none => exact refines_refused hgood (by simp [keyEffect, hlast])
  | some last =>
      by_cases hnl : last = charNewline
      · simp only [hnl, ↓reduceIte]
        exact refines_refused hgood (by simp [keyEffect, hlast, hnl])
      · have herase := hsafe rfl last (hpeek.trans hlast) hnl
        have hunbuffer := refines_unbufferByte hgood ht
        have herase' : EraseSafe (unbufferByte tty terminal) terminal
            (eraseCount tty terminal last) :=
          (eraseSafe_unbufferByte hgood ht _).mpr herase
        have hput := @refines_putcTimes layout _ terminal hunbuffer.good ht
          charBackspace _ (fun _ => herase')
        rw [hunbuffer.ideal_eq] at hput
        have hkey : (tty.ideal layout terminal).key charBackspace =
            IdealTerminal.putcTimes { tty.ideal layout terminal with
              pending := (tty.pending terminal).dropLast } charBackspace
              (eraseCount tty terminal last) := by
          have hpending : (tty.ideal layout terminal).pending =
              tty.pending terminal := rfl
          simp only [IdealTerminal.key, hpending, keyEffect_backspace hlast hnl,
            ↓reduceIte, hlast]
          rfl
        simp only [hnl, ↓reduceIte]
        rw [hkey]
        exact hunbuffer.trans hput

theorem refines_keyboardPutc_newline (hgood : tty.Good layout)
    (ht : terminal < numTerminals) :
    Refines layout tty terminal (keyboardPutc tty terminal charNewline).1
      ((tty.ideal layout terminal).key charNewline) := by
  have hlen : circularBufferLen (tty.inputBuffer terminal) =
      (tty.pending terminal).length := (tty.pending_length terminal).symm
  have hne : charNewline ≠ charBackspace := by decide
  simp only [keyboardPutc, hne, ↓reduceIte, hlen]
  by_cases hfull : (tty.pending terminal).length ≥ keyboardBufferSize
  · simp only [hfull, ↓reduceIte]
    exact refines_refused hgood (by simp [keyEffect, hne, hfull])
  · have hroom := Nat.lt_of_not_le hfull
    have hbuffer := refines_bufferByte hgood ht charNewline hroom
    have hput := refines_putcInternal hbuffer.good ht
      (fun hback => absurd hback hne)
    rw [hbuffer.ideal_eq] at hput
    have hcount := @refines_setCounter layout _ terminal hput.good
      ((tty.newLineReady terminal + 1) % 256)
    rw [hput.ideal_eq] at hcount
    have hready : (putcInternal (bufferByte tty terminal charNewline) terminal
        charNewline).newLineReady = tty.newLineReady :=
      (Tty.newLineReady_congr (putcInternal_inputSide _ _ _)).trans
        (bufferByte_newLineReady _)
    have hkey : (tty.ideal layout terminal).key charNewline =
        { IdealTerminal.putc { tty.ideal layout terminal with
            pending := tty.pending terminal ++ [charNewline] } charNewline with
          newLineReady := (tty.newLineReady terminal + 1) % 256 } := by
      have hpending : (tty.ideal layout terminal).pending =
          tty.pending terminal := rfl
      simp only [IdealTerminal.key, hpending, keyEffect_newline hroom, hne,
        ↓reduceIte]
      rfl
    simp only [hfull, ↓reduceIte, hready, hkey]
    rw [hready] at hcount
    exact (hbuffer.trans hput).trans hcount

theorem refines_keyboardPutc_other (hgood : tty.Good layout)
    (ht : terminal < numTerminals) {ch : UInt8} (hback : ch ≠ charBackspace)
    (hnl : ch ≠ charNewline) :
    Refines layout tty terminal (keyboardPutc tty terminal ch).1
      ((tty.ideal layout terminal).key ch) := by
  have hlen : circularBufferLen (tty.inputBuffer terminal) =
      (tty.pending terminal).length := (tty.pending_length terminal).symm
  have hpending : (tty.ideal layout terminal).pending =
      tty.pending terminal := rfl
  simp only [keyboardPutc, hback, hnl, ↓reduceIte, hlen]
  by_cases hzero : ch = 0
  · subst hzero
    have htab : (0 : UInt8) ≠ charTab := by decide
    have hpos : ¬ (0 : UInt8) > 0 := by decide
    have heffect : keyEffect (tty.pending terminal) 0 =
        some (tty.pending terminal) := rfl
    simp only [IdealTerminal.key, hpending, heffect, hback, hnl, htab, hpos,
      ↓reduceIte]
    exact ⟨hgood, rfl, fun _ _ _ => rfl⟩
  · have hpos : ch > 0 := UInt8.pos_iff_ne_zero.mpr hzero
    by_cases hroom : (tty.pending terminal).length < keyboardBufferSize - 1
    · have hbuffer := refines_bufferByte hgood ht ch
        (Nat.lt_of_lt_of_le hroom (by decide))
      have heffect := keyEffect_printable hback hnl hzero hroom
      simp only [IdealTerminal.key, hpending, heffect, hback, hnl, hroom, hpos,
        hzero, ↓reduceIte]
      by_cases htab : ch = charTab
      · have hput := @refines_putcTimes layout _ terminal hbuffer.good ht
          charSpace (tabSpaceCount (tty.cursorLocation terminal).1)
          (fun hspace => absurd hspace (by decide))
        rw [hbuffer.ideal_eq] at hput
        simp only [htab, ↓reduceIte] at hbuffer hput ⊢
        exact hbuffer.trans hput
      · have hput := refines_putcInternal hbuffer.good ht
          (fun hspace => absurd hspace hback)
        rw [hbuffer.ideal_eq] at hput
        simp only [htab, ↓reduceIte]
        exact hbuffer.trans hput
    · have hnone : keyEffect (tty.pending terminal) ch = none := by
        simp only [keyEffect, hback, hnl, hzero, hroom, ↓reduceIte]
      simp only [hroom, hpos, ↓reduceIte]
      split
      · exact refines_refused hgood hnone
      · exact refines_refused hgood hnone

/-- `keyboard_putc` acts on its own terminal, as the ideal terminal does. -/
theorem refines_keyboardPutc (hgood : tty.Good layout)
    (ht : terminal < numTerminals) {ch : UInt8}
    (hsafe : KeyEraseSafe tty terminal ch) :
    Refines layout tty terminal (keyboardPutc tty terminal ch).1
      ((tty.ideal layout terminal).key ch) := by
  by_cases hback : ch = charBackspace
  · subst hback
    exact refines_keyboardPutc_backspace hgood ht hsafe
  · by_cases hnl : ch = charNewline
    · subst hnl
      exact refines_keyboardPutc_newline hgood ht
    · exact refines_keyboardPutc_other hgood ht hback hnl

end Key

section Switch

variable {layout : Layout} {tty : Tty}

/-- Video memory after a switch: the old screen saved to its background buffer,
then the new terminal's background buffer copied out. -/
def switchedVram (layout : Layout) (vram : Memory UInt16)
    (oldTerminal newTerminal : Nat) : Memory UInt16 :=
  (vram.copyUp (layout.outputBufferOf oldTerminal / 2) (videoPhysAddr / 2)
    (fourKbAligned / 2)).copyUp (videoPhysAddr / 2)
      (layout.outputBufferOf newTerminal / 2) (fourKbAligned / 2)

/-- After a switch every screen is where `get_terminal_output_buffer` says
and holds what it held before. -/
theorem switchedVram_screen (hactive : tty.activeTerminal < numTerminals)
    {newTerminal t i : Nat} (hnew : newTerminal < numTerminals)
    (ht : t < numTerminals) (hi : i < screenCells) :
    switchedVram layout tty.vram tty.activeTerminal newTerminal
        ((if t = newTerminal then videoPhysAddr
          else layout.outputBufferOf t) / 2 + i) =
      tty.vram (screenBase layout tty t + i) := by
  have hge := layout.outputBuffer_ge
  have halign := layout.outputBuffer_aligned
  simp only [numTerminals, screenCells, terminalColumns, terminalRows]
    at hactive hnew ht hi
  simp only [switchedVram, screenBase, getTerminalOutputBuffer,
    Layout.outputBufferOf, videoPhysAddr, fourKbAligned]
  have hsaved := Memory.copyUp_apply tty.vram (Or.inr (by omega) :
    (layout.outputBuffer + 8192 * tty.activeTerminal) / 2 ≤ 0xB8000 / 2 ∨
      0xB8000 / 2 + 4096 / 2 ≤
        (layout.outputBuffer + 8192 * tty.activeTerminal) / 2)
  rw [Memory.copyUp_apply _ (Or.inl (by omega))]
  by_cases hshown : t = newTerminal
  · subst hshown
    rw [if_pos rfl, if_pos (by omega), hsaved]
    by_cases hsame : t = tty.activeTerminal
    · rw [if_pos (by omega), if_pos hsame]
      exact congrArg tty.vram (by omega)
    · rw [if_neg (by omega), if_neg hsame]
      exact congrArg tty.vram (by omega)
  · rw [if_neg hshown, if_neg (by omega), hsaved]
    by_cases hsame : t = tty.activeTerminal
    · rw [if_pos (by omega), if_pos hsame]
      exact congrArg tty.vram (by omega)
    · rw [if_neg (by omega), if_neg hsame]

/-- A switch turns two pointers round and leaves the third. -/
theorem switchActiveTerminal_videoMemory
    (hwired : ∀ t < numTerminals,
      tty.videoMemory t = getTerminalOutputBuffer layout tty t)
    (newTerminal : Nat) {t : Nat} (ht : t < numTerminals) :
    (switchActiveTerminal layout tty newTerminal).videoMemory t =
      getTerminalOutputBuffer layout
        (switchActiveTerminal layout tty newTerminal) t := by
  by_cases hnew : newTerminal < numTerminals
  · have hold := hwired t ht
    simp only [switchActiveTerminal, hnew, ↓reduceIte, setHardwareCursor,
      getTerminalOutputBuffer, Function.update_apply] at hold ⊢
    by_cases hshown : t = newTerminal
    · simp only [hshown, ↓reduceIte]
    · by_cases hsaved : t = tty.activeTerminal
      · have hne : tty.activeTerminal ≠ newTerminal := hsaved ▸ hshown
        simp only [hsaved, hne, ↓reduceIte]
      · simp only [hshown, hsaved, ↓reduceIte] at hold ⊢
        exact hold
  · simp only [switchActiveTerminal, hnew, ↓reduceIte]
    exact hwired t ht

theorem switchActiveTerminal_good (hgood : tty.Good layout)
    (newTerminal : Nat) :
    (switchActiveTerminal layout tty newTerminal).Good layout := by
  have hwired : ∀ t < numTerminals,
      (switchActiveTerminal layout tty newTerminal).videoMemory t =
        getTerminalOutputBuffer layout
          (switchActiveTerminal layout tty newTerminal) t := fun t ht =>
    switchActiveTerminal_videoMemory hgood.videoMemory_eq newTerminal ht
  by_cases hnew : newTerminal < numTerminals
  · simp only [switchActiveTerminal, hnew, ↓reduceIte] at hwired ⊢
    refine ⟨hnew, hwired, ?_, ?_, ?_, hgood.ready⟩
    · intro t ht
      simp only [setHardwareCursor, Prod.mk.eta, Function.update_eq_self]
      exact hgood.cursor_x t ht
    · intro t ht
      simp only [setHardwareCursor, Prod.mk.eta, Function.update_eq_self]
      exact hgood.cursor_y t ht
    · simp only [setHardwareCursor, Prod.mk.eta, Function.update_eq_self,
        ↓reduceIte]
  · simp only [switchActiveTerminal, hnew, ↓reduceIte]
    exact hgood

theorem switchActiveTerminal_fields {newTerminal : Nat}
    (hnew : newTerminal < numTerminals) :
    (switchActiveTerminal layout tty newTerminal).activeTerminal =
        newTerminal ∧
      (switchActiveTerminal layout tty newTerminal).vram =
        switchedVram layout tty.vram tty.activeTerminal newTerminal ∧
      (switchActiveTerminal layout tty newTerminal).cursorLocation =
        tty.cursorLocation ∧
      (switchActiveTerminal layout tty newTerminal).inputSide =
        tty.inputSide := by
  simp only [switchActiveTerminal, hnew, ↓reduceIte, setHardwareCursor,
    switchedVram, Prod.mk.eta, Function.update_eq_self, Tty.inputSide,
    and_self]

/-- Switching changes no terminal. -/
theorem switchActiveTerminal_ideal (hgood : tty.Good layout)
    (newTerminal : Nat) {t : Nat} (ht : t < numTerminals) :
    (switchActiveTerminal layout tty newTerminal).ideal layout t =
      tty.ideal layout t := by
  by_cases hnew : newTerminal < numTerminals
  · obtain ⟨hactive, hvram, hcursor, hside⟩ :=
      @switchActiveTerminal_fields layout tty newTerminal hnew
    simp only [Tty.ideal, IdealTerminal.mk.injEq]
    refine ⟨?_, congrFun hcursor t, Tty.pending_congr hside t,
      congrFun (Tty.newLineReady_congr hside) t⟩
    funext i
    rw [screenBase, getTerminalOutputBuffer, hactive, hvram]
    split
    · exact switchedVram_screen hgood.active_lt hnew ht (by assumption)
    · rfl
  · simp only [switchActiveTerminal, hnew, ↓reduceIte]

end Switch

section Init

variable {layout : Layout} {tty : Tty}

/-- A terminal `multiple_terminal_init` has been through. -/
structure Tty.Started (layout : Layout) (tty : Tty) (terminal : Nat) :
    Prop where
  videoMemory_eq : tty.videoMemory terminal =
    getTerminalOutputBuffer layout tty terminal
  cursor_eq : tty.cursorLocation terminal = (0, 0)
  hardwareCursor_eq : terminal = tty.activeTerminal →
    tty.hardwareCursor = videoIndex 0 0
  ready : tty.InputReady layout terminal

theorem getTerminalOutputBuffer_congr {left right : Tty}
    (hactive : left.activeTerminal = right.activeTerminal) (terminal : Nat) :
    getTerminalOutputBuffer layout left terminal =
      getTerminalOutputBuffer layout right terminal := by
  simp only [getTerminalOutputBuffer, hactive]

@[simp]
theorem clearTerminal_activeTerminal (terminal : Nat) :
    (clearTerminal tty terminal).activeTerminal = tty.activeTerminal := by
  simp only [clearTerminal, setHardwareCursor]

@[simp]
theorem clearTerminal_videoMemory (terminal : Nat) :
    (clearTerminal tty terminal).videoMemory = tty.videoMemory := by
  simp only [clearTerminal, setHardwareCursor]

@[simp]
theorem clearTerminal_cursorLocation (terminal : Nat) :
    (clearTerminal tty terminal).cursorLocation =
      Function.update tty.cursorLocation terminal (0, 0) := by
  simp only [clearTerminal, setHardwareCursor]

theorem clearTerminal_hardwareCursor {terminal : Nat}
    (hhidden : terminal ≠ tty.activeTerminal) :
    (clearTerminal tty terminal).hardwareCursor = tty.hardwareCursor := by
  simp only [clearTerminal, setHardwareCursor, hhidden, ↓reduceIte]

/-- What one turn of the loop does to the drawing side. -/
theorem initTerminal_fields (layout : Layout) (tty : Tty) (terminal : Nat) :
    (initTerminal layout tty terminal).activeTerminal =
        tty.activeTerminal ∧
      (initTerminal layout tty terminal).videoMemory =
        Function.update tty.videoMemory terminal
          (getTerminalOutputBuffer layout tty terminal) ∧
      (initTerminal layout tty terminal).cursorLocation =
        Function.update tty.cursorLocation terminal (0, 0) ∧
      (terminal = tty.activeTerminal →
        (initTerminal layout tty terminal).hardwareCursor =
          videoIndex 0 0) ∧
      (terminal ≠ tty.activeTerminal →
        (initTerminal layout tty terminal).hardwareCursor =
          tty.hardwareCursor) := by
  simp only [initTerminal, resetTerminal, setHardwareCursor,
    clearTerminal_activeTerminal, clearTerminal_videoMemory,
    clearTerminal_cursorLocation, initInputBuffer, Function.update_idem,
    true_and]
  constructor
  · intro hactive
    simp only [hactive, ↓reduceIte]
  · intro hhidden
    simp only [hhidden, ↓reduceIte]
    exact clearTerminal_hardwareCursor hhidden

theorem initTerminal_started (layout : Layout) (tty : Tty) (terminal : Nat) :
    (initTerminal layout tty terminal).Started layout terminal := by
  obtain ⟨hactive, hvideo, hcursor, hshown, -⟩ :=
    initTerminal_fields layout tty terminal
  refine ⟨?_, ?_, ?_, resetTerminal_ready _ _ _⟩
  · rw [hvideo, Function.update_self, getTerminalOutputBuffer_congr hactive]
  · rw [hcursor, Function.update_self]
  · intro hterminal
    exact hshown (hterminal.trans hactive)

theorem initTerminal_started_other {terminal t : Nat} (hne : t ≠ terminal)
    (hstarted : tty.Started layout t) :
    (initTerminal layout tty terminal).Started layout t := by
  obtain ⟨hactive, hvideo, hcursor, -, hhidden⟩ :=
    initTerminal_fields layout tty terminal
  refine ⟨?_, ?_, ?_, ?_⟩
  · rw [hvideo, Function.update_of_ne hne,
      getTerminalOutputBuffer_congr hactive]
    exact hstarted.videoMemory_eq
  · rw [hcursor, Function.update_of_ne hne]
    exact hstarted.cursor_eq
  · intro ht
    rw [hactive] at ht
    have hforeign : terminal ≠ tty.activeTerminal := by
      rintro rfl
      exact hne ht
    rw [hhidden hforeign]
    exact hstarted.hardwareCursor_eq ht
  · rw [Tty.InputReady, initTerminal, resetTerminal_inputBuffer,
      Function.update_of_ne hne]
    exact hstarted.ready

/-- What a turn of the loop does for its terminal, and the other turns leave,
holds of every terminal at the end. -/
theorem multipleTerminalInit_rule {P : Tty → Nat → Prop}
    (hturn : ∀ tty terminal, P (initTerminal layout tty terminal) terminal)
    (hother : ∀ {tty terminal t}, t ≠ terminal → P tty t →
      P (initTerminal layout tty terminal) t)
    {t : Nat} (ht : t < numTerminals) :
    P (multipleTerminalInit layout tty) t := by
  simp only [multipleTerminalInit, numTerminals, List.range_succ,
    List.range_zero, List.nil_append, List.cons_append, List.foldl_cons,
    List.foldl_nil]
  simp only [numTerminals] at ht
  rcases (by omega : t = 0 ∨ t = 1 ∨ t = 2) with rfl | rfl | rfl
  · exact hother (by decide) (hother (by decide) (hturn _ 0))
  · exact hother (by decide) (hturn _ 1)
  · exact hturn _ 2

theorem multipleTerminalInit_started {t : Nat} (ht : t < numTerminals) :
    (multipleTerminalInit layout tty).Started layout t :=
  multipleTerminalInit_rule (initTerminal_started layout)
    initTerminal_started_other ht

/-- Whatever was in memory, `multiple_terminal_init` establishes the
invariant. -/
theorem multipleTerminalInit_good
    (hactive : tty.activeTerminal < numTerminals) :
    (multipleTerminalInit layout tty).Good layout := by
  have hstarted : ∀ t < numTerminals,
      (multipleTerminalInit layout tty).Started layout t := fun _ ht =>
    multipleTerminalInit_started ht
  have hlt : (multipleTerminalInit layout tty).activeTerminal <
      numTerminals := by
    simp only [multipleTerminalInit, numTerminals, List.range_succ,
      List.range_zero, List.nil_append, List.cons_append, List.foldl_cons,
      List.foldl_nil, (initTerminal_fields _ _ _).1]
    exact hactive
  refine ⟨hlt, fun t ht => (hstarted t ht).videoMemory_eq, ?_, ?_, ?_,
    fun t ht => (hstarted t ht).ready⟩
  · intro t ht
    rw [(hstarted t ht).cursor_eq]
    decide
  · intro t ht
    rw [(hstarted t ht).cursor_eq]
    decide
  · rw [(hstarted _ hlt).hardwareCursor_eq rfl, (hstarted _ hlt).cursor_eq]

end Init

/-- The operations on one terminal. -/
inductive TerminalOp where
  | putc (ch : UInt8)
  | key (ch : UInt8)
  | clear
  | reset
  | read (nbytes : Int)

inductive TerminalEvent where
  | on (terminal : Nat) (op : TerminalOp)
  | switchTo (newTerminal : Nat)

/-- Perform an operation; a read waits while no line is ready. -/
def performOp (layout : Layout) (tty : Tty) (terminal : Nat) :
    TerminalOp → Option Tty
  | .putc ch => some (putcInternal tty terminal ch)
  | .key ch => some (keyboardPutc tty terminal ch).1
  | .clear => some (clearTerminal tty terminal)
  | .reset => some (resetTerminal layout tty terminal)
  | .read nbytes => (terminalRead tty terminal nbytes).map Prod.snd

def terminalStep (layout : Layout) : StepFn Tty TerminalEvent
  | tty, .on terminal op =>
      if terminal < numTerminals then performOp layout tty terminal op
      else none
  | tty, .switchTo newTerminal =>
      some (switchActiveTerminal layout tty newTerminal)

/-- The event erases nothing with the cursor at the top left cell. -/
def EventEraseSafe (tty : Tty) : TerminalEvent → Prop
  | .on terminal (.putc ch) =>
      ch = charBackspace → tty.cursorLocation terminal ≠ (0, 0)
  | .on terminal (.key ch) => KeyEraseSafe tty terminal ch
  | _ => True

def directedAt (terminal : Nat) : TerminalEvent → Bool
  | .on other _ => other == terminal
  | .switchTo _ => false

namespace IdealTerminal

def perform (term : IdealTerminal) : TerminalOp → Option IdealTerminal
  | .putc ch => some (term.putc ch)
  | .key ch => some (term.key ch)
  | .clear => some term.clear
  | .reset => some term.reset
  | .read nbytes => term.read nbytes

def OpEraseSafe (term : IdealTerminal) : TerminalOp → Prop
  | .putc ch => ch = charBackspace → term.cursor ≠ (0, 0)
  | .key ch => term.KeyEraseSafe ch
  | _ => True

end IdealTerminal

section Isolation

variable {layout : Layout} {tty : Tty} {terminal : Nat}

/-- Every operation refines the same operation of the ideal terminal. -/
theorem refines_performOp (hgood : tty.Good layout)
    (ht : terminal < numTerminals) {op : TerminalOp} {next : Tty}
    (hsafe : EventEraseSafe tty (.on terminal op))
    (hperform : performOp layout tty terminal op = some next) :
    ∃ term, (tty.ideal layout terminal).perform op = some term ∧
      Refines layout tty terminal next term := by
  cases op with
  | putc ch =>
      obtain rfl := Option.some.inj hperform
      exact ⟨_, rfl, refines_putcInternal hgood ht hsafe⟩
  | key ch =>
      obtain rfl := Option.some.inj hperform
      exact ⟨_, rfl, refines_keyboardPutc hgood ht hsafe⟩
  | clear =>
      obtain rfl := Option.some.inj hperform
      exact ⟨_, rfl, refines_clearTerminal hgood ht⟩
  | reset =>
      obtain rfl := Option.some.inj hperform
      exact ⟨_, rfl, refines_resetTerminal hgood ht⟩
  | read nbytes =>
      obtain ⟨⟨bytes, after⟩, hread, rfl⟩ :=
        Option.map_eq_some_iff.mp hperform
      exact refines_terminalRead hgood ht hread

/-- Only a read can have to wait, and the ideal terminal knows when. -/
theorem performOp_eq_some {op : TerminalOp} {term : IdealTerminal}
    (hperform : (tty.ideal layout terminal).perform op = some term) :
    ∃ next, performOp layout tty terminal op = some next := by
  cases op with
  | read nbytes =>
      have hline : tty.newLineReady terminal ≠ 0 := by
        intro hzero
        have hzero' : (tty.ideal layout terminal).newLineReady = 0 := hzero
        simp [IdealTerminal.perform, IdealTerminal.read, hzero'] at hperform
      have hsome : terminalRead tty terminal nbytes ≠ none := by
        rwa [Ne, terminalRead_eq_none_iff]
      obtain ⟨result, hresult⟩ := Option.ne_none_iff_exists'.mp hsome
      exact ⟨result.2, Option.map_eq_some_iff.mpr ⟨result, hresult, rfl⟩⟩
  | _ => exact ⟨_, rfl⟩

theorem eventEraseSafe_iff (hgood : tty.Good layout)
    (ht : terminal < numTerminals) (op : TerminalOp) :
    EventEraseSafe tty (.on terminal op) ↔
      (tty.ideal layout terminal).OpEraseSafe op := by
  cases op with
  | key ch => exact keyEraseSafe_iff hgood ht ch
  | _ => exact Iff.rfl

theorem terminalStep_good {event : TerminalEvent} {next : Tty}
    (hgood : tty.Good layout) (hsafe : EventEraseSafe tty event)
    (hstep : terminalStep layout tty event = some next) :
    next.Good layout := by
  cases event with
  | on t op =>
      obtain ⟨ht, hperform⟩ := Option.ite_none_right_eq_some.mp hstep
      obtain ⟨term, -, hrefines⟩ := refines_performOp hgood ht hsafe hperform
      exact hrefines.good
  | switchTo newTerminal =>
      obtain rfl := Option.some.inj hstep
      exact switchActiveTerminal_good hgood newTerminal

/-- An event directed elsewhere leaves the terminal alone. -/
theorem terminalStep_foreign {event : TerminalEvent} {next : Tty}
    (ht : terminal < numTerminals) (hgood : tty.Good layout)
    (hsafe : EventEraseSafe tty event)
    (hforeign : directedAt terminal event = false)
    (hstep : terminalStep layout tty event = some next) :
    next.ideal layout terminal = tty.ideal layout terminal := by
  cases event with
  | on t op =>
      obtain ⟨ht', hperform⟩ := Option.ite_none_right_eq_some.mp hstep
      obtain ⟨term, -, hrefines⟩ := refines_performOp hgood ht' hsafe hperform
      apply hrefines.others terminal ht
      rintro rfl
      simp [directedAt] at hforeign
  | switchTo newTerminal =>
      obtain rfl := Option.some.inj hstep
      exact switchActiveTerminal_ideal hgood newTerminal ht

/-- An event directed at the terminal does the same to it wherever the other
terminals are. -/
theorem terminalStep_mine {event : TerminalEvent} {next other : Tty}
    (hgood : tty.Good layout) (hother : other.Good layout)
    (hsame : tty.ideal layout terminal = other.ideal layout terminal)
    (hsafe : EventEraseSafe tty event)
    (hmine : directedAt terminal event = true)
    (hstep : terminalStep layout tty event = some next) :
    EventEraseSafe other event ∧
      ∃ after, terminalStep layout other event = some after ∧
        after.ideal layout terminal = next.ideal layout terminal := by
  cases event with
  | on t op =>
      obtain rfl : t = terminal := by simpa [directedAt] using hmine
      obtain ⟨ht, hperform⟩ := Option.ite_none_right_eq_some.mp hstep
      obtain ⟨term, hterm, hrefines⟩ :=
        refines_performOp hgood ht hsafe hperform
      have hsafe' : EventEraseSafe other (.on t op) := by
        rw [eventEraseSafe_iff hother ht, ← hsame, ← eventEraseSafe_iff hgood ht]
        exact hsafe
      rw [hsame] at hterm
      obtain ⟨after, hafter⟩ := performOp_eq_some hterm
      obtain ⟨term', hterm', hrefines'⟩ :=
        refines_performOp hother ht hsafe' hafter
      obtain rfl : term = term' := Option.some.inj (hterm.symm.trans hterm')
      refine ⟨hsafe', after, ?_, hrefines'.ideal_eq.trans hrefines.ideal_eq.symm⟩
      rw [terminalStep, if_pos ht]
      exact hafter
  | switchTo newTerminal => simp [directedAt] at hmine

/-- The screen of a terminal: the first 2000 words of video memory for the
active terminal and of its background buffer for the others. -/
def Tty.screen (layout : Layout) (tty : Tty) (terminal : Nat) :
    List UInt16 :=
  tty.vram.load (getTerminalOutputBuffer layout tty terminal / 2) screenCells

theorem screen_eq_of_ideal_eq {other : Tty}
    (hideal : tty.ideal layout terminal = other.ideal layout terminal) :
    tty.screen layout terminal = other.screen layout terminal := by
  have hcells := congrArg IdealTerminal.cells hideal
  rw [Tty.screen, Tty.screen, Memory.load, Memory.load]
  apply List.map_congr_left
  intro i hi
  have hcell := congrFun hcells i
  simpa only [Tty.ideal, screenBase, List.mem_range.mp hi, ↓reduceIte]
    using hcell

/-- In any interleaving of operations on the three terminals and of switches,
the pointer table and the hardware cursor are right, and each terminal ends as
if its own operations had run alone. -/
theorem terminals_isolated {start final : Tty} {events : List TerminalEvent}
    (hactive : start.activeTerminal < numTerminals)
    (hsafe : (terminalStep layout).Along EventEraseSafe
      (multipleTerminalInit layout start) events)
    (hrun : (terminalStep layout).run (multipleTerminalInit layout start)
      events = some final) :
    (∀ t < numTerminals,
        final.videoMemory t = getTerminalOutputBuffer layout final t) ∧
      final.hardwareCursor =
        videoIndex (final.cursorLocation final.activeTerminal).1
          (final.cursorLocation final.activeTerminal).2 ∧
      ∀ t < numTerminals, ∃ alone,
        (terminalStep layout).run (multipleTerminalInit layout start)
          (events.filter (directedAt t)) = some alone ∧
        alone.screen layout t = final.screen layout t ∧
        alone.cursorLocation t = final.cursorLocation t ∧
        alone.pending t = final.pending t ∧
        alone.newLineReady t = final.newLineReady t := by
  have hstart := @multipleTerminalInit_good layout start hactive
  have hgood := StepFn.run_invariant_along
    (fun _ _ _ hinv hcond hnext => terminalStep_good hinv hcond hnext)
    hstart hsafe hrun
  refine ⟨hgood.videoMemory_eq, hgood.hardwareCursor_eq, ?_⟩
  intro t ht
  obtain ⟨alone, halone, hideal⟩ := StepFn.run_filter_view
    (fun tty => tty.ideal layout t) (directedAt t)
    (fun _ _ _ hinv hcond hnext => terminalStep_good hinv hcond hnext)
    (fun _ _ _ hinv hcond hforeign hnext =>
      terminalStep_foreign ht hinv hcond hforeign hnext)
    (fun _ _ _ _ hleft hright hview hcond hmine hnext =>
      terminalStep_mine hleft hright hview hcond hmine hnext)
    hstart hstart rfl hsafe hrun
  exact ⟨alone, halone, screen_eq_of_ideal_eq hideal,
    congrArg IdealTerminal.cursor hideal,
    congrArg IdealTerminal.pending hideal,
    congrArg IdealTerminal.newLineReady hideal⟩

/-- A character typed in the background and erased there, while the screen
shows another terminal. -/
def backgroundEvents : List TerminalEvent :=
  [.on 0 (.putc 65), .switchTo 1, .on 1 (.key 66),
    .on 0 (.putc charBackspace), .switchTo 7, .switchTo 0]

theorem backgroundEvents_isolated : ∃ final alone,
    (terminalStep sampleLayout).run
      (multipleTerminalInit sampleLayout Tty.zeroed) backgroundEvents =
        some final ∧
    (terminalStep sampleLayout).run
      (multipleTerminalInit sampleLayout Tty.zeroed)
      (backgroundEvents.filter (directedAt 1)) = some alone ∧
    alone.screen sampleLayout 1 = final.screen sampleLayout 1 := by
  have hsafe : (terminalStep sampleLayout).Along EventEraseSafe
      (multipleTerminalInit sampleLayout Tty.zeroed) backgroundEvents := by
    refine ⟨fun hback => absurd hback (by decide), ?_⟩
    rintro _ ⟨rfl⟩
    refine ⟨trivial, ?_⟩
    rintro _ ⟨rfl⟩
    refine ⟨fun hback => absurd hback (by decide), ?_⟩
    rintro _ ⟨rfl⟩
    refine ⟨fun _ => by decide +kernel, ?_⟩
    rintro _ ⟨rfl⟩
    refine ⟨trivial, ?_⟩
    rintro _ ⟨rfl⟩
    refine ⟨trivial, ?_⟩
    rintro _ ⟨rfl⟩
    trivial
  have hisolated := @terminals_isolated sampleLayout Tty.zeroed _ _
    (by decide) hsafe rfl
  obtain ⟨alone, halone, hscreen, -⟩ := hisolated.2.2 1 (by decide)
  exact ⟨_, alone, rfl, halone, hscreen⟩

end Isolation

end PsychOS
