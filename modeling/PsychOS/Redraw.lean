/-
Ctrl+L.  The handler clears the screen and draws the pending bytes through
`putc_internal`, where typing has drawn them through `keyboard_putc`.  The two
agree but for tabs, for which `putc_internal` draws nothing.
-/
import Mathlib.Data.List.Induction
import PsychOS.Keyboard
import PsychOS.NewlineCounter
import PsychOS.TypingUndo

namespace PsychOS

/-- The part of the driver's state that buffering never touches. -/
structure DrawSide where
  activeTerminal : Nat
  vram : Memory UInt16
  videoMemory : Nat → Nat
  cursorLocation : Nat → Nat × Nat
  hardwareCursor : Nat

def Tty.drawSide (tty : Tty) : DrawSide :=
  ⟨tty.activeTerminal, tty.vram, tty.videoMemory, tty.cursorLocation,
    tty.hardwareCursor⟩

/-- No tab draws a blank when the keys are typed. -/
def SilentTabs (tty : Tty) (terminal : Nat) : List UInt8 → Prop
  | [] => True
  | ch :: rest =>
      (ch = charTab →
        tabSpaceCount (tty.cursorLocation terminal).1 = 0) ∧
        SilentTabs (keyboardPutc tty terminal ch).1 terminal rest

theorem silentTabs_append {tty : Tty} {terminal : Nat}
    {front last : List UInt8} :
    SilentTabs tty terminal (front ++ last) ↔
      SilentTabs tty terminal front ∧
        SilentTabs (typeKeys tty terminal front) terminal last := by
  induction front generalizing tty with
  | nil => exact (and_iff_right trivial).symm
  | cons ch rest ih =>
      rw [List.cons_append, SilentTabs, SilentTabs, ih, and_assoc]
      rfl

section Drawing

variable {left right tty : Tty} {terminal : Nat}

/-- Drawing reads nothing of the input side. -/
theorem putcInternal_drawSide_congr (hsame : left.drawSide = right.drawSide)
    (ch : UInt8) :
    (putcInternal left terminal ch).drawSide =
      (putcInternal right terminal ch).drawSide := by
  cases left
  cases right
  simp only [Tty.drawSide, DrawSide.mk.injEq] at hsame
  obtain ⟨rfl, rfl, rfl, rfl, rfl⟩ := hsame
  simp only [putcInternal, lineFeed]
  repeat' split
  all_goals rfl

theorem terminalWrite_drawSide_congr (hsame : left.drawSide = right.drawSide)
    (bytes : List UInt8) :
    (terminalWrite left terminal bytes).drawSide =
      (terminalWrite right terminal bytes).drawSide := by
  induction bytes generalizing left right with
  | nil => exact hsame
  | cons ch rest ih => exact ih (putcInternal_drawSide_congr hsame ch)

theorem terminalWrite_append (tty : Tty) (terminal : Nat)
    (bytes more : List UInt8) :
    terminalWrite tty terminal (bytes ++ more) =
      terminalWrite (terminalWrite tty terminal bytes) terminal more :=
  List.foldl_append

theorem keyboardPutc_drawSide (tty : Tty) (terminal : Nat) (ch : UInt8) :
    (keyboardPutc tty terminal ch).1.drawSide =
      (terminalWrite tty terminal (keyEcho tty terminal ch).2).drawSide := by
  obtain ⟨counter, hkey⟩ := keyboardPutc_eq_terminalWrite tty terminal ch
  have hecho : (keyEcho tty terminal ch).1.drawSide = tty.drawSide := by
    simp only [keyEcho]
    repeat' split
    all_goals rfl
  rw [hkey]
  exact terminalWrite_drawSide_congr hecho _

theorem sameScreen_of_drawSide (hsame : left.drawSide = right.drawSide) :
    SameScreen (left.view terminal) (right.view terminal) := by
  cases left
  cases right
  simp only [Tty.drawSide, DrawSide.mk.injEq] at hsame
  obtain ⟨rfl, rfl, rfl, rfl, rfl⟩ := hsame
  exact ⟨rfl, rfl⟩

/-- The hardware cursor stands where the terminal's cursor does, if the
terminal is shown. -/
def CursorShown (tty : Tty) (terminal : Nat) : Prop :=
  terminal = tty.activeTerminal → tty.hardwareCursor =
    videoIndex (tty.cursorLocation terminal).1 (tty.cursorLocation terminal).2

theorem setHardwareCursor_shown (tty : Tty) (terminal x y : Nat) :
    CursorShown (setHardwareCursor tty terminal x y) terminal := by
  intro hactive
  simp only [setHardwareCursor, Function.update_self]
  exact if_pos hactive

theorem putcInternal_shown (tty : Tty) (terminal : Nat) (ch : UInt8) :
    CursorShown (putcInternal tty terminal ch) terminal := by
  simp only [putcInternal]
  split_ifs <;> exact setHardwareCursor_shown _ _ _ _

/-- `putc_internal` does nothing for a tab but to set the cursor again. -/
theorem putcInternal_tab (hshown : CursorShown tty terminal) :
    putcInternal tty terminal charTab = tty := by
  have hback : charTab ≠ charBackspace := by decide
  have hnl : charTab ≠ charNewline := by decide
  simp only [putcInternal, hback, hnl, ↓reduceIte, setHardwareCursor,
    Prod.mk.eta, Function.update_eq_self]
  by_cases hactive : terminal = tty.activeTerminal
  · rw [if_pos hactive, ← hshown hactive]
  · rw [if_neg hactive]

theorem terminalWrite_without_tabs (hshown : CursorShown tty terminal)
    (bytes : List UInt8) :
    terminalWrite tty terminal bytes =
      terminalWrite tty terminal (bytes.filter (· ≠ charTab)) := by
  induction bytes generalizing tty with
  | nil => rfl
  | cons ch rest ih =>
      by_cases htab : ch = charTab
      · rw [List.filter_cons_of_neg (by simp [htab]), ← ih hshown]
        subst htab
        exact congrArg (terminalWrite · terminal rest) (putcInternal_tab hshown)
      · rw [List.filter_cons_of_pos (by simp [htab])]
        exact ih (putcInternal_shown tty terminal ch)

end Drawing

/-- What an input buffer can hold: a byte in the last place is a newline. -/
structure Buffered (pending : List UInt8) : Prop where
  bytes : ∀ ch ∈ pending, ch ≠ 0 ∧ ch ≠ charBackspace
  length_le : pending.length ≤ keyboardBufferSize
  filled : pending.length = keyboardBufferSize →
    pending.getLast? = some charNewline

section Buffers

variable {layout : Layout} {tty next : Tty} {terminal : Nat}

theorem Buffered.nil : Buffered [] :=
  ⟨fun _ hmem => absurd hmem List.not_mem_nil, Nat.zero_le _,
    fun hfull => by cases hfull⟩

theorem Buffered.room {front rest : List UInt8} {ch : UInt8}
    (hbuffered : Buffered (front ++ ch :: rest)) :
    ch ≠ charNewline → front.length < keyboardBufferSize - 1 := by
  intro hnl
  have hlength := hbuffered.length_le
  have hfilled := hbuffered.filled
  rw [List.length_append, List.length_cons] at hlength hfilled
  by_contra hfull
  have hrest : rest = [] := by
    apply List.eq_nil_of_length_eq_zero
    simp only [keyboardBufferSize] at *
    omega
  subst hrest
  have hlast := hfilled (by
    simp only [keyboardBufferSize, List.length_nil] at *
    omega)
  rw [List.getLast?_concat] at hlast
  exact hnl (Option.some.inj hlast)

/-- The bytes of a buffer are accepted when they are typed again. -/
theorem keyboardPutc_buffered (hready : tty.InputReady layout terminal)
    {ch : UInt8} {rest : List UInt8}
    (hbuffered : Buffered (tty.pending terminal ++ ch :: rest)) :
    (keyboardPutc tty terminal ch).2 = 1 ∧
      (keyboardPutc tty terminal ch).1.InputReady layout terminal ∧
      (keyboardPutc tty terminal ch).1.pending terminal =
        tty.pending terminal ++ [ch] := by
  obtain ⟨hzero, hback⟩ := hbuffered.bytes ch
    (List.mem_append_right _ List.mem_cons_self)
  have heffect : keyEffect (tty.pending terminal) ch =
      some (tty.pending terminal ++ [ch]) := by
    by_cases hnl : ch = charNewline
    · have hlength := hbuffered.length_le
      rw [List.length_append, List.length_cons] at hlength
      rw [hnl]
      exact keyEffect_newline (by omega)
    · exact keyEffect_printable hback hnl hzero (hbuffered.room hnl)
  have hspec := keyboardPutc_spec hready ch
  refine ⟨?_, hspec.ready, ?_⟩
  · rw [hspec.ret_eq, heffect]
    rfl
  · rw [hspec.pending_eq, heffect]
    rfl

theorem typeKeys_buffered (hready : tty.InputReady layout terminal)
    {keys : List UInt8}
    (hbuffered : Buffered (tty.pending terminal ++ keys)) :
    AllAccepted tty terminal keys ∧
      (typeKeys tty terminal keys).InputReady layout terminal ∧
      (typeKeys tty terminal keys).pending terminal =
        tty.pending terminal ++ keys := by
  induction keys generalizing tty with
  | nil => exact ⟨trivial, hready, (List.append_nil _).symm⟩
  | cons ch rest ih =>
      obtain ⟨haccept, hready', hpending⟩ :=
        keyboardPutc_buffered hready hbuffered
      have hrest : Buffered
          ((keyboardPutc tty terminal ch).1.pending terminal ++ rest) := by
        rw [hpending, List.append_assoc]
        exact hbuffered
      obtain ⟨hall, hfinal, hbytes⟩ := ih hready' hrest
      refine ⟨⟨haccept, hall⟩, hfinal, ?_⟩
      rw [hpending, List.append_assoc] at hbytes
      exact hbytes

theorem Buffered.dropLast {pending : List UInt8}
    (hbuffered : Buffered pending) : Buffered pending.dropLast := by
  have hle := hbuffered.length_le
  refine ⟨fun ch hmem => hbuffered.bytes ch (List.dropLast_subset _ hmem), ?_, ?_⟩
  · rw [List.length_dropLast]
    omega
  · rw [List.length_dropLast]
    intro hfull
    simp only [keyboardBufferSize] at hle hfull
    omega

theorem Buffered.drop {pending : List UInt8} (hbuffered : Buffered pending)
    (count : Nat) : Buffered (pending.drop count) := by
  have hle := hbuffered.length_le
  refine ⟨fun ch hmem => hbuffered.bytes ch (List.mem_of_mem_drop hmem), ?_, ?_⟩
  · rw [List.length_drop]
    omega
  · rw [List.length_drop]
    intro hfull
    have hnone : count = 0 := by
      simp only [keyboardBufferSize] at hle hfull
      omega
    rw [hnone, List.drop_zero]
    exact hbuffered.filled (by omega)

theorem Buffered.concat {pending : List UInt8} {ch : UInt8}
    (hbuffered : Buffered pending) (hbyte : ch ≠ 0 ∧ ch ≠ charBackspace)
    (hroom : pending.length < keyboardBufferSize)
    (hlast : pending.length = keyboardBufferSize - 1 → ch = charNewline) :
    Buffered (pending ++ [ch]) := by
  refine ⟨?_, ?_, ?_⟩
  · intro other hmem
    rcases List.mem_append.mp hmem with hmem | hmem
    · exact hbuffered.bytes other hmem
    · rw [List.mem_singleton.mp hmem]
      exact hbyte
  · rw [List.length_append]
    exact hroom
  · rw [List.length_append, List.getLast?_concat]
    intro hfull
    rw [hlast (Nat.eq_sub_of_add_eq hfull)]

theorem keyEffect_buffered {pending : List UInt8}
    (hbuffered : Buffered pending) (ch : UInt8) :
    Buffered ((keyEffect pending ch).getD pending) := by
  by_cases hzero : ch = 0
  · subst hzero
    exact hbuffered
  · by_cases hsome : (keyEffect pending ch).isSome
    · rcases keyEffect_accepted hzero hsome with
        ⟨rfl, last, hlast, hnl⟩ | ⟨rfl, hroom⟩ | ⟨hback, hnl, hroom⟩
      · rw [keyEffect_backspace hlast hnl]
        exact hbuffered.dropLast
      · rw [keyEffect_newline hroom]
        exact hbuffered.concat ⟨by decide, by decide⟩ hroom (fun _ => rfl)
      · rw [keyEffect_printable hback hnl hzero hroom]
        exact hbuffered.concat ⟨hzero, hback⟩
          (Nat.lt_of_lt_of_le hroom (Nat.sub_le _ _))
          (fun hfull => absurd hfull (Nat.ne_of_lt hroom))
    · rw [Option.not_isSome_iff_eq_none.mp hsome]
      exact hbuffered

theorem inputStep_buffered (event : InputEvent)
    (hready : tty.InputReady layout terminal)
    (hbuffered : Buffered (tty.pending terminal))
    (hstep : inputStep layout terminal tty event = some next) :
    Buffered (next.pending terminal) := by
  cases event with
  | key ch =>
      obtain rfl := Option.some.inj hstep
      rw [(keyboardPutc_spec hready ch).pending_eq]
      exact keyEffect_buffered hbuffered ch
  | read nbytes =>
      obtain ⟨⟨bytes, after⟩, hread, rfl⟩ := Option.map_eq_some_iff.mp hstep
      rw [(terminalRead_spec hready hread).pending_eq]
      exact hbuffered.drop _
  | openTerminal =>
      obtain rfl := Option.some.inj hstep
      rw [terminalOpen_pending]
      exact .nil
  | closeTerminal =>
      obtain rfl := Option.some.inj hstep
      rw [terminalClose_pending]
      exact .nil
  | resetTerminal =>
      obtain rfl := Option.some.inj hstep
      rw [resetTerminal_pending]
      exact .nil

/-- So it is in every input buffer that can be reached. -/
theorem run_buffered {boot reached : Tty} {events : List InputEvent}
    (hrun : StepFn.run (inputStep layout terminal)
      (resetTerminal layout boot terminal) events = some reached) :
    Buffered (reached.pending terminal) := by
  have hstart : (resetTerminal layout boot terminal).InputReady layout terminal ∧
      Buffered ((resetTerminal layout boot terminal).pending terminal) := by
    rw [resetTerminal_pending]
    exact ⟨resetTerminal_ready layout boot terminal, .nil⟩
  refine (@StepFn.run_invariant _ _ _ (fun state =>
    state.InputReady layout terminal ∧ Buffered (state.pending terminal)) ?_
    _ _ _ hstart hrun).2
  rintro state event after ⟨hready, hbuffered⟩ hstep
  exact ⟨inputStep_ready event hready hstep,
    inputStep_buffered event hready hbuffered hstep⟩

end Buffers

section Redraw

variable {layout : Layout} {left right tty : Tty} {terminal : Nat}
  {keys : List UInt8}

theorem redrawInput_eq (hready : tty.InputReady layout terminal) :
    redrawInput tty terminal =
      terminalWrite (clearTerminal tty terminal) terminal
        (tty.pending terminal) := by
  have hpeek : circularBufferPeek tty.inputMem (tty.inputBuffer terminal)
      keyboardBufferSize = (tty.pending terminal).take keyboardBufferSize :=
    CircularBuffer.peek_bytes hready.valid _
  rw [redrawInput, hpeek, List.take_of_length_le hready.pending_length_le]

theorem terminalWrite_inputSide (bytes : List UInt8) :
    (terminalWrite tty terminal bytes).inputSide = tty.inputSide := by
  induction bytes generalizing tty with
  | nil => rfl
  | cons ch rest ih => exact ih.trans (putcInternal_inputSide tty terminal ch)

theorem redrawInput_inputSide :
    (redrawInput tty terminal).inputSide = tty.inputSide :=
  (terminalWrite_inputSide _).trans (clearTerminal_inputSide tty terminal)

/-- Typed without tabs that draw, the keys are drawn as `putc_internal` draws
them. -/
theorem typeKeys_drawSide (hbytes : ∀ ch ∈ keys, ch ≠ 0 ∧ ch ≠ charBackspace)
    (haccept : AllAccepted tty terminal keys)
    (hsilent : SilentTabs tty terminal keys) :
    (typeKeys tty terminal keys).drawSide =
      (terminalWrite tty terminal (keys.filter (· ≠ charTab))).drawSide := by
  induction keys generalizing tty with
  | nil => rfl
  | cons ch rest ih =>
      obtain ⟨hzero, hback⟩ := hbytes ch List.mem_cons_self
      have hecho : (keyEcho tty terminal ch).2 =
          [ch].filter (· ≠ charTab) := by
        rw [keyEcho_accepted hzero hback haccept.1]
        split
        · rw [hsilent.1 ‹_›, List.filter_cons_of_neg (by simp [*])]
          rfl
        · rw [List.filter_cons_of_pos (by simp [*])]
          rfl
      have hfirst := keyboardPutc_drawSide tty terminal ch
      rw [hecho] at hfirst
      have hrest := ih (fun ch hmem => hbytes ch (List.mem_cons_of_mem _ hmem))
        haccept.2 hsilent.2
      rw [← List.singleton_append, List.filter_append, terminalWrite_append]
      exact hrest.trans (terminalWrite_drawSide_congr hfirst _)

theorem terminalOpen_drawSide (layout : Layout) (tty : Tty) (terminal : Nat) :
    (terminalOpen layout tty terminal).drawSide =
      (clearTerminal tty terminal).drawSide := rfl

theorem clearTerminal_shown (tty : Tty) (terminal : Nat) :
    CursorShown (clearTerminal tty terminal) terminal :=
  setHardwareCursor_shown _ _ _ _

theorem typeKeys_opened_drawSide (hbuffered : Buffered keys)
    (hsilent : SilentTabs (terminalOpen layout tty terminal) terminal keys) :
    (typeKeys (terminalOpen layout tty terminal) terminal keys).drawSide =
      (terminalWrite (clearTerminal tty terminal) terminal keys).drawSide := by
  have haccept := (typeKeys_buffered (terminalOpen_ready layout tty terminal)
    (by rw [terminalOpen_pending]; exact hbuffered)).1
  rw [typeKeys_drawSide hbuffered.bytes haccept hsilent,
    terminalWrite_without_tabs (clearTerminal_shown tty terminal)]
  exact terminalWrite_drawSide_congr (terminalOpen_drawSide layout tty terminal) _

/-- The echo of a key depends on the pending bytes and the cursor. -/
theorem keyEcho_congr (hleft : left.InputReady layout terminal)
    (hright : right.InputReady layout terminal)
    (hcursor : left.cursorLocation = right.cursorLocation)
    (hpending : left.pending terminal = right.pending terminal) (ch : UInt8) :
    (keyEcho left terminal ch).2 = (keyEcho right terminal ch).2 := by
  have hlen : circularBufferLen (left.inputBuffer terminal) =
      circularBufferLen (right.inputBuffer terminal) := by
    rw [circularBufferLen, circularBufferLen, ← left.pending_length terminal,
      ← right.pending_length terminal, hpending]
  have hpeek : circularBufferPeekEndByte left.inputMem
      (left.inputBuffer terminal) =
        circularBufferPeekEndByte right.inputMem
          (right.inputBuffer terminal) := by
    rw [CircularBuffer.peekEndByte_eq_getLast? hleft.valid,
      CircularBuffer.peekEndByte_eq_getLast? hright.valid]
    exact congrArg List.getLast? hpending
  simp only [keyEcho, hlen, hpeek, eraseCount, hcursor]
  cases circularBufferPeekEndByte right.inputMem
      (right.inputBuffer terminal) with
  | none =>
      repeat' split
      all_goals rfl
  | some last =>
      dsimp only
      repeat' split
      all_goals rfl

/-- The same drawing and the same pending bytes. -/
structure Alike (layout : Layout) (terminal : Nat) (left right : Tty) :
    Prop where
  drawSide_eq : left.drawSide = right.drawSide
  pending_eq : left.pending terminal = right.pending terminal
  left_ready : left.InputReady layout terminal
  right_ready : right.InputReady layout terminal

theorem Alike.key (halike : Alike layout terminal left right) (ch : UInt8) :
    Alike layout terminal (keyboardPutc left terminal ch).1
      (keyboardPutc right terminal ch).1 := by
  obtain ⟨hdraw, hpending, hleft, hright⟩ := halike
  have hspec := keyboardPutc_spec hleft ch
  have hspec' := keyboardPutc_spec hright ch
  refine ⟨?_, ?_, hspec.ready, hspec'.ready⟩
  · rw [keyboardPutc_drawSide, keyboardPutc_drawSide, keyEcho_congr hleft hright
      (congrArg DrawSide.cursorLocation hdraw) hpending]
    exact terminalWrite_drawSide_congr hdraw _
  · rw [hspec.pending_eq, hspec'.pending_eq, hpending]

/-- Later keys cannot tell the two apart. -/
theorem Alike.typeKeys (halike : Alike layout terminal left right)
    (keys : List UInt8) :
    Alike layout terminal (typeKeys left terminal keys)
      (typeKeys right terminal keys) := by
  induction keys generalizing left right with
  | nil => exact halike
  | cons ch rest ih => exact ih (halike.key ch)

theorem typeKeys_opened_onScreen (hbuffered : Buffered keys)
    (hsilent : SilentTabs (terminalOpen layout tty terminal) terminal keys) :
    ((typeKeys (terminalOpen layout tty terminal) terminal keys).view
      terminal).OnScreen := by
  have hclear : ((clearTerminal tty terminal).view terminal).OnScreen := by
    rw [view_clearTerminal]
    exact IdealTerminal.clear_onScreen _
  have hwritten := IdealTerminal.write_onScreen hclear keys
  rw [← view_terminalWrite hclear
    (fun hmem => (hbuffered.bytes _ hmem).2 rfl)] at hwritten
  exact (sameScreen_of_drawSide
    (typeKeys_opened_drawSide hbuffered hsilent)).onScreen hwritten

theorem Buffered.front {front last : List UInt8}
    (hbuffered : Buffered (front ++ last)) : Buffered front := by
  have hle := hbuffered.length_le
  have hfilled := hbuffered.filled
  rw [List.length_append] at hle hfilled
  refine ⟨fun ch hmem => hbuffered.bytes ch (List.mem_append_left _ hmem),
    by omega, ?_⟩
  intro hfull
  have hnil : last = [] := List.eq_nil_of_length_eq_zero (by omega)
  subst hnil
  rw [List.append_nil] at hfilled
  exact hfilled hfull

/-- Where the tabs before it were silent, a tab that draws puts the cursor to
another column than `putc_internal` does. -/
theorem silent_of_drawSide {front : List UInt8}
    (hbuffered : Buffered (front ++ [charTab]))
    (hsilent : SilentTabs (terminalOpen layout tty terminal) terminal front)
    (hdraw : (typeKeys (terminalOpen layout tty terminal) terminal
        (front ++ [charTab])).drawSide =
      (terminalWrite (clearTerminal tty terminal) terminal
        (front ++ [charTab])).drawSide) :
    tabSpaceCount ((typeKeys (terminalOpen layout tty terminal) terminal
      front).cursorLocation terminal).1 = 0 := by
  have hfront := typeKeys_opened_drawSide hbuffered.front hsilent
  have hon := typeKeys_opened_onScreen hbuffered.front hsilent
  obtain ⟨-, hready, hpending⟩ := typeKeys_buffered
    (terminalOpen_ready layout tty terminal)
    (by rw [terminalOpen_pending]; exact hbuffered.front)
  rw [terminalOpen_pending, List.nil_append] at hpending
  have haccept := (keyboardPutc_buffered hready
    (by rw [hpending]; exact hbuffered)).1
  have hcolumn := column_of_tab hon
    (keyboardPutc_advances hon ⟨by decide, by decide, by decide⟩ haccept)
  have hwritten : terminalWrite (clearTerminal tty terminal) terminal
      (front ++ [charTab]) =
        terminalWrite (clearTerminal tty terminal) terminal front := by
    rw [terminalWrite_without_tabs (clearTerminal_shown tty terminal),
      List.filter_append, terminalWrite_without_tabs
      (clearTerminal_shown tty terminal) front]
    exact congrArg _ (List.append_nil _)
  rw [hwritten, ← hfront, typeKeys_append] at hdraw
  have hsame := congrFun (congrArg DrawSide.cursorLocation hdraw) terminal
  change (keyboardPutc _ terminal charTab).1.cursorLocation terminal =
    Tty.cursorLocation _ terminal at hsame
  rw [hsame] at hcolumn
  omega

/-- Exactly the buffers without tabs that draw are drawn alike on both paths,
together with all their fronts. -/
theorem fronts_drawn_alike_iff (hbuffered : Buffered keys) :
    (∀ front, front <+: keys →
        (terminalWrite (clearTerminal tty terminal) terminal front).drawSide =
          (typeKeys (terminalOpen layout tty terminal) terminal
            front).drawSide) ↔
      SilentTabs (terminalOpen layout tty terminal) terminal keys := by
  constructor
  · intro hall
    induction keys using List.reverseRecOn with
    | nil => trivial
    | append_singleton front ch ih =>
        have hsilent := ih hbuffered.front fun other hother =>
          hall other (hother.trans (List.prefix_append front [ch]))
        refine silentTabs_append.mpr ⟨hsilent, ?_, trivial⟩
        rintro rfl
        exact silent_of_drawSide hbuffered hsilent
          (hall _ (List.prefix_refl _)).symm
  · rintro hsilent front ⟨last, rfl⟩
    exact (typeKeys_opened_drawSide hbuffered.front
      (silentTabs_append.mp hsilent).1).symm

theorem drawnCells_of_silentTabs
    (hsilent : SilentTabs tty terminal keys) :
    drawnCells tty terminal keys =
      (keys.filter (· ≠ charTab)).length := by
  induction keys generalizing tty with
  | nil => rfl
  | cons ch rest ih =>
      rw [drawnCells, ih hsilent.2, drawCount]
      by_cases htab : ch = charTab
      · rw [if_pos htab, hsilent.1 htab,
          List.filter_cons_of_neg (by simp [htab]), Nat.zero_add]
      · rw [if_neg htab, List.filter_cons_of_pos (by simp [htab]),
          List.length_cons, Nat.add_comm]

/-- Backspaces from a state that looks like one in which `keys` were typed. -/
theorem Alike.backspaces {typed : Tty}
    (halike : Alike layout terminal typed (PsychOS.typeKeys tty terminal keys))
    (hready : tty.InputReady layout terminal)
    (hon : (tty.view terminal).OnScreen)
    (hbuffered : Buffered (tty.pending terminal ++ keys))
    (hnl : charNewline ∉ keys) (haligned : TabsAligned tty terminal keys) :
    (PsychOS.typeKeys typed terminal
        (List.replicate keys.length charBackspace)).pending terminal =
      tty.pending terminal ∧
    Erases (typed.view terminal) ((PsychOS.typeKeys typed terminal
        (List.replicate keys.length charBackspace)).view terminal)
      (drawnCells tty terminal keys) := by
  have htypes : ∀ ch ∈ keys, Types ch := by
    intro ch hmem
    obtain ⟨hzero, hback⟩ := hbuffered.bytes ch (List.mem_append_right _ hmem)
    exact ⟨hzero, hback, fun hsame => hnl (hsame ▸ hmem)⟩
  have htaken := takenBack_of_tabsAligned hready hon htypes
    (typeKeys_buffered hready hbuffered).1 haligned
  have hafter := halike.typeKeys (List.replicate keys.length charBackspace)
  exact ⟨hafter.pending_eq.trans htaken.pending_eq,
    htaken.erases.congr (sameScreen_of_drawSide halike.drawSide_eq)
      (sameScreen_of_drawSide hafter.drawSide_eq)⟩

end Redraw

/-- Ctrl+L on a terminal whose input buffer holds what some history of keys and
reads has left in it.  The buffer stays as it is.  The screens and cursors are
those of typing the pending bytes on the cleared terminal if no tab among them
draws, and such bytes are the only ones that are drawn alike with all their
fronts.  From then on the two states react alike to every key, and backspaces
clear exactly the cells of the bytes they delete, if tabs are at tab stops. -/
theorem redraw_matches_typing {layout : Layout} {terminal : Nat}
    {boot reached tty : Tty} {events : List InputEvent}
    (hrun : StepFn.run (inputStep layout terminal)
      (resetTerminal layout boot terminal) events = some reached)
    (hready : tty.InputReady layout terminal)
    (hpending : tty.pending terminal = reached.pending terminal) :
    let cleared := terminalOpen layout tty terminal
    let typed := typeKeys cleared terminal (tty.pending terminal)
    let redrawn := redrawInput tty terminal
    redrawn.inputSide = tty.inputSide ∧
    ((∀ front, front <+: tty.pending terminal →
        (terminalWrite (clearTerminal tty terminal) terminal front).drawSide =
          (typeKeys cleared terminal front).drawSide) ↔
      SilentTabs cleared terminal (tty.pending terminal)) ∧
    (SilentTabs cleared terminal (tty.pending terminal) →
      redrawn.drawSide = typed.drawSide ∧
      (∀ keys, (typeKeys redrawn terminal keys).drawSide =
        (typeKeys typed terminal keys).drawSide) ∧
      ∀ front last, tty.pending terminal = front ++ last →
        charNewline ∉ last →
        TabsAligned (typeKeys cleared terminal front) terminal last →
        let after := typeKeys redrawn terminal
          (List.replicate last.length charBackspace)
        after.pending terminal = front ∧
          Erases (redrawn.view terminal) (after.view terminal)
            (last.filter (· ≠ charTab)).length) := by
  intro cleared typed redrawn
  have hbuffered : Buffered (tty.pending terminal) := by
    rw [hpending]
    exact run_buffered hrun
  have hcleared : cleared.InputReady layout terminal :=
    terminalOpen_ready layout tty terminal
  have hempty : cleared.pending terminal = [] :=
    terminalOpen_pending layout tty terminal
  refine ⟨redrawInput_inputSide, fronts_drawn_alike_iff hbuffered, ?_⟩
  intro hsilent
  have hdraw : redrawn.drawSide = typed.drawSide := by
    rw [typeKeys_opened_drawSide hbuffered hsilent]
    exact congrArg Tty.drawSide (redrawInput_eq hready)
  have htyped := typeKeys_buffered hcleared
    (show Buffered (cleared.pending terminal ++ tty.pending terminal) by
      rw [hempty]; exact hbuffered)
  rw [hempty, List.nil_append] at htyped
  have halike : Alike layout terminal redrawn typed :=
    ⟨hdraw, (Tty.pending_congr redrawInput_inputSide terminal).trans
      htyped.2.2.symm, hready.congr redrawInput_inputSide, htyped.2.1⟩
  refine ⟨hdraw, fun keys => (halike.typeKeys keys).drawSide_eq, ?_⟩
  intro front last hsplit hnl haligned after
  rw [hsplit] at hbuffered hsilent
  obtain ⟨-, hbase, hfront⟩ := typeKeys_buffered hcleared
    (show Buffered (cleared.pending terminal ++ front) by
      rw [hempty]; exact hbuffered.front)
  rw [hempty, List.nil_append] at hfront
  obtain ⟨hsilentFront, hsilentLast⟩ := silentTabs_append.mp hsilent
  have hboth : typed = typeKeys (typeKeys cleared terminal front) terminal
      last := by
    rw [← typeKeys_append, ← hsplit]
  rw [hboth] at halike
  have herased := halike.backspaces hbase
    (typeKeys_opened_onScreen hbuffered.front hsilentFront)
    (by rw [hfront]; exact hbuffered) hnl haligned
  rwa [hfront, drawnCells_of_silentTabs hsilentLast] at herased

/-- Four letters and a tab, which draws nothing at column 4. -/
def lettersAndTab : List UInt8 := [97, 98, 99, 100, charTab]

theorem redraw_letters_and_tab :
    (typeKeys (resetTerminal sampleLayout .zeroed 0) 0
      lettersAndTab).pending 0 = lettersAndTab ∧
    (redrawInput (typeKeys (resetTerminal sampleLayout .zeroed 0) 0
        lettersAndTab) 0).drawSide =
      (typeKeys (terminalOpen sampleLayout (typeKeys
          (resetTerminal sampleLayout .zeroed 0) 0 lettersAndTab) 0) 0
        ((typeKeys (resetTerminal sampleLayout .zeroed 0) 0
          lettersAndTab).pending 0)).drawSide := by
  have hpending : (typeKeys (resetTerminal sampleLayout .zeroed 0) 0
      lettersAndTab).pending 0 = lettersAndTab := by decide +kernel
  have hready := (typeKeys_buffered
    (resetTerminal_ready sampleLayout .zeroed 0)
    (show Buffered (_ ++ lettersAndTab) by
      rw [resetTerminal_pending]
      exact ⟨by simp [lettersAndTab, charTab, charBackspace], by decide,
        by decide⟩)).2.1
  refine ⟨hpending, ((redraw_matches_typing
    (show StepFn.run (inputStep sampleLayout 0)
      (resetTerminal sampleLayout .zeroed 0)
      [.key 97, .key 98, .key 99, .key 100, .key charTab] = some _ from rfl)
    hready rfl).2.2 ?_).1⟩
  rw [hpending]
  refine ⟨fun h => absurd h (by decide), fun h => absurd h (by decide),
    fun h => absurd h (by decide), fun h => absurd h (by decide), fun _ => ?_,
    trivial⟩
  decide +kernel

/-- A tab: typing has moved the cursor to column 4, Ctrl+L puts it to column 0,
and the buffer still holds the tab. -/
theorem redraw_loses_tab : ∃ tty,
    StepFn.run (inputStep sampleLayout 0) (resetTerminal sampleLayout .zeroed 0)
      [.key charTab] = some tty ∧
    (redrawInput tty 0).pending 0 = [charTab] ∧
    (redrawInput tty 0).cursorLocation 0 = (0, 0) ∧
    (typeKeys (terminalOpen sampleLayout tty 0) 0
      (tty.pending 0)).cursorLocation 0 = (4, 0) := by
  refine ⟨_, rfl, ?_, ?_, ?_⟩ <;> decide +kernel

end PsychOS
