/-
The newline counter.  `new_line_ready` is meant to count the newlines in the
input buffer, but it is updated apart from the buffer.  This module settles
which histories keep the two in step: exactly those in which every read takes
a whole line and the buffer is only discarded while no line is complete.
-/
import PsychOS.Lib.Run
import PsychOS.TerminalInput

namespace PsychOS

/-- Everything that changes the input buffer or the counter of a terminal. -/
inductive InputEvent where
  | key (ch : UInt8)
  | read (nbytes : Int)
  | openTerminal
  | closeTerminal
  | resetTerminal
deriving Repr, DecidableEq

def inputStep (layout : Layout) (terminal : Nat) : StepFn Tty InputEvent
  | tty, .key ch => some (keyboardPutc tty terminal ch).1
  | tty, .read nbytes =>
      (terminalRead tty terminal nbytes).map fun result => result.2
  | tty, .openTerminal => some (terminalOpen layout tty terminal)
  | tty, .closeTerminal => some (terminalClose tty terminal)
  | tty, .resetTerminal => some (resetTerminal layout tty terminal)

/-- The counter is the number of newlines in the buffer. -/
def CounterAgrees (terminal : Nat) (tty : Tty) : Prop :=
  tty.newLineReady terminal = (tty.pending terminal).count charNewline

/-- A reader blocks exactly when no complete line is buffered. -/
def BlocksWithoutLine (terminal : Nat) (tty : Tty) : Prop :=
  ∀ nbytes, terminalRead tty terminal nbytes = none ↔
    charNewline ∉ tty.pending terminal

/-- The steps that keep the counter right: a read must ask, as an unsigned
number, for at least the first line, and `terminal_open` and `terminal_close`
must find the counter at zero. -/
def KeepsCounter (terminal : Nat) (tty : Tty) : InputEvent → Prop
  | .read nbytes => lineLength (tty.pending terminal) ≤ toUint32 nbytes
  | .openTerminal => tty.newLineReady terminal = 0
  | .closeTerminal => tty.newLineReady terminal = 0
  | .key _ => True
  | .resetTerminal => True

instance (terminal : Nat) (tty : Tty) :
    DecidablePred (KeepsCounter terminal tty)
  | .read nbytes => inferInstanceAs
      (Decidable (lineLength (tty.pending terminal) ≤ toUint32 nbytes))
  | .openTerminal =>
      inferInstanceAs (Decidable (tty.newLineReady terminal = 0))
  | .closeTerminal =>
      inferInstanceAs (Decidable (tty.newLineReady terminal = 0))
  | .key _ => isTrue trivial
  | .resetTerminal => isTrue trivial

section Steps

variable {layout : Layout} {terminal : Nat} {tty next : Tty}

theorem inputStep_ready (event : InputEvent)
    (hready : tty.InputReady layout terminal)
    (hstep : inputStep layout terminal tty event = some next) :
    next.InputReady layout terminal := by
  cases event with
  | key ch =>
      obtain rfl := Option.some.inj hstep
      exact (keyboardPutc_spec hready ch).ready
  | read nbytes =>
      obtain ⟨⟨bytes, after⟩, hread, rfl⟩ := Option.map_eq_some_iff.mp hstep
      exact (terminalRead_spec hready hread).ready
  | openTerminal =>
      obtain rfl := Option.some.inj hstep
      exact terminalOpen_ready layout tty terminal
  | closeTerminal =>
      obtain rfl := Option.some.inj hstep
      exact terminalClose_ready hready
  | resetTerminal =>
      obtain rfl := Option.some.inj hstep
      exact resetTerminal_ready layout tty terminal

theorem CounterAgrees.blocks (hagree : CounterAgrees terminal tty) :
    BlocksWithoutLine terminal tty := by
  intro nbytes
  rw [terminalRead_eq_none_iff, hagree, List.count_eq_zero]

/-- The counter is too small to wrap. -/
theorem CounterAgrees.counter_le (hagree : CounterAgrees terminal tty) :
    tty.newLineReady terminal ≤ (tty.pending terminal).length := by
  rw [hagree]
  exact List.count_le_length

theorem count_dropLast_of_ne {bytes : List UInt8} {last : UInt8}
    (hlast : bytes.getLast? = some last) (hnl : last ≠ charNewline) :
    bytes.dropLast.count charNewline = bytes.count charNewline := by
  obtain ⟨front, rfl⟩ := List.getLast?_eq_some_iff.mp hlast
  simp [List.count_append, hnl]

theorem CounterAgrees.key (hagree : CounterAgrees terminal tty)
    (hready : tty.InputReady layout terminal) (ch : UInt8) :
    CounterAgrees terminal (keyboardPutc tty terminal ch).1 := by
  have hcount := hagree.counter_le
  have heq : tty.newLineReady terminal =
      (tty.pending terminal).count charNewline := hagree
  rw [CounterAgrees]
  rcases keyboardPutc_cases hready rfl with ⟨hpending, hcounter⟩ |
    ⟨last, hlast, hnl, hpending, hcounter⟩ | ⟨hroom, hpending, hcounter⟩ |
    ⟨hnl, -, hpending, hcounter⟩
  · rw [hpending, hcounter, heq]
  · rw [hpending, hcounter, heq, count_dropLast_of_ne hlast hnl]
  · have hsmall : tty.newLineReady terminal + 1 < 256 := by
      simp only [keyboardBufferSize] at hroom
      omega
    rw [hpending, hcounter, Nat.mod_eq_of_lt hsmall, List.count_append, heq]
    rfl
  · rw [hpending, hcounter, List.count_append, heq]
    simp [hnl]

/-- From an agreeing state, a read keeps the agreement exactly when it takes
the whole first line. -/
theorem CounterAgrees.read_iff (hagree : CounterAgrees terminal tty)
    (hready : tty.InputReady layout terminal) {nbytes : Int}
    {bytes : List UInt8}
    (hread : terminalRead tty terminal nbytes = some (bytes, next)) :
    CounterAgrees terminal next ↔
      lineLength (tty.pending terminal) ≤ toUint32 nbytes := by
  obtain ⟨hcounter, -, -, hpending, hnext⟩ := terminalRead_spec hready hread
  have hcount := hagree.counter_le
  have hbound := hready.pending_length_le
  have hmem : charNewline ∈ tty.pending terminal := by
    rw [hagree] at hcounter
    exact List.count_pos_iff.mp (Nat.pos_of_ne_zero hcounter)
  have hprev : (tty.newLineReady terminal + 255) % 256 + 1 =
      tty.newLineReady terminal := by
    simp only [keyboardBufferSize] at hbound
    omega
  obtain ⟨body, rest, hsplit, hbody⟩ := List.eq_append_cons_of_mem hmem
  have hlen : lineLength (tty.pending terminal) = body.length + 1 := by
    rw [hsplit, lineLength_append_newline hbody]
  have htotal : tty.newLineReady terminal = rest.count charNewline + 1 := by
    rw [hagree, hsplit]
    simp [List.count_append, List.count_eq_zero_of_not_mem hbody]
  rw [CounterAgrees, hnext, hpending, hlen]
  constructor
  · intro hafter
    by_contra hshort
    -- a short read drops no newline, yet the counter goes down
    have hmin : min (body.length + 1) (toUint32 nbytes) = toUint32 nbytes :=
      Nat.min_eq_right (by omega)
    have hkept : ((tty.pending terminal).drop (toUint32 nbytes)).count
        charNewline = rest.count charNewline + 1 := by
      rw [hsplit, List.drop_append_of_le_length (by omega)]
      have hdrop : charNewline ∉ body.drop (toUint32 nbytes) := fun hin =>
        hbody (List.mem_of_mem_drop hin)
      simp [List.count_append, List.count_eq_zero_of_not_mem hdrop]
    rw [hmin, hkept] at hafter
    omega
  · intro hfits
    have hdrop : (tty.pending terminal).drop (body.length + 1) = rest := by
      rw [hsplit]
      simp [List.drop_append]
    rw [Nat.min_eq_left hfits, hdrop]
    omega

/-- Discarding the buffer without touching the counter. -/
theorem counterAgrees_emptied_iff
    (hpending : next.pending terminal = [])
    (hcounter : next.newLineReady terminal = tty.newLineReady terminal) :
    CounterAgrees terminal next ↔ tty.newLineReady terminal = 0 := by
  rw [CounterAgrees, hpending, hcounter, List.count_nil]

theorem inputStep_agrees_iff (event : InputEvent)
    (hready : tty.InputReady layout terminal)
    (hagree : CounterAgrees terminal tty)
    (hstep : inputStep layout terminal tty event = some next) :
    CounterAgrees terminal next ↔ KeepsCounter terminal tty event := by
  cases event with
  | key ch =>
      obtain rfl := Option.some.inj hstep
      exact iff_of_true (hagree.key hready ch) trivial
  | read nbytes =>
      obtain ⟨⟨bytes, after⟩, hread, rfl⟩ := Option.map_eq_some_iff.mp hstep
      exact hagree.read_iff hready hread
  | openTerminal =>
      obtain rfl := Option.some.inj hstep
      exact counterAgrees_emptied_iff (terminalOpen_pending layout tty terminal)
        (congrFun (terminalOpen_newLineReady layout tty terminal) terminal)
  | closeTerminal =>
      obtain rfl := Option.some.inj hstep
      exact counterAgrees_emptied_iff (terminalClose_pending tty terminal) rfl
  | resetTerminal =>
      obtain rfl := Option.some.inj hstep
      apply iff_of_true _ trivial
      rw [CounterAgrees, resetTerminal_pending, resetTerminal_newLineReady]
      rfl

end Steps

theorem resetTerminal_agrees (layout : Layout) (tty : Tty)
    (terminal : Nat) :
    CounterAgrees terminal (resetTerminal layout tty terminal) := by
  rw [CounterAgrees, resetTerminal_pending, resetTerminal_newLineReady]
  rfl

/-- In every run from a reset terminal the counter agrees with the buffer in
all states passed through if and only if every read takes at least the first
line and the buffer is only opened or closed with the counter at zero; while
it agrees, a reader blocks exactly when no complete line is buffered. -/
theorem counter_agrees_throughout_iff (layout : Layout) (tty : Tty)
    (terminal : Nat) (events : List InputEvent) (final : Tty)
    (hrun : StepFn.run (inputStep layout terminal)
      (resetTerminal layout tty terminal) events = some final) :
    (StepFn.Throughout (inputStep layout terminal) (CounterAgrees terminal)
        (resetTerminal layout tty terminal) events ↔
      StepFn.Along (inputStep layout terminal) (KeepsCounter terminal)
        (resetTerminal layout tty terminal) events) ∧
      (StepFn.Throughout (inputStep layout terminal) (CounterAgrees terminal)
          (resetTerminal layout tty terminal) events →
        StepFn.Throughout (inputStep layout terminal)
          (BlocksWithoutLine terminal)
          (resetTerminal layout tty terminal) events) := by
  constructor
  · exact StepFn.throughout_iff_along
      (fun _ event _ hready hstep => inputStep_ready event hready hstep)
      (fun _ event _ hready hagree hstep =>
        inputStep_agrees_iff event hready hagree hstep)
      (resetTerminal_ready layout tty terminal)
      (resetTerminal_agrees layout tty terminal) hrun
  · intro hall front middle hprefix hmiddle
    exact (hall front middle hprefix hmiddle).blocks

/-- Typing a line and reading it with room to spare. -/
def wholeRead : List InputEvent := [.key 97, .key 10, .read 128]

theorem wholeRead_keeps_counter :
    ∃ final, StepFn.run (inputStep sampleLayout 0)
        (resetTerminal sampleLayout .zeroed 0) wholeRead = some final ∧
      StepFn.Throughout (inputStep sampleLayout 0) (CounterAgrees 0)
        (resetTerminal sampleLayout .zeroed 0) wholeRead := by
  have hsome : (StepFn.run (inputStep sampleLayout 0)
      (resetTerminal sampleLayout .zeroed 0) wholeRead).isSome := by decide
  obtain ⟨final, hrun⟩ := Option.isSome_iff_exists.mp hsome
  refine ⟨final, hrun, ?_⟩
  apply (counter_agrees_throughout_iff sampleLayout .zeroed 0 wholeRead final
    hrun).1.mpr
  refine ⟨trivial, ?_⟩
  rintro afterKey ⟨rfl⟩
  refine ⟨trivial, ?_⟩
  rintro afterNewline ⟨rfl⟩
  exact ⟨by decide, fun _ _ => trivial⟩

/-- Typing a line and reading one byte of it. -/
def shortRead : List InputEvent := [.key 97, .key 10, .read 1]

/-- After a one-byte read the counter is zero while the newline is still in
the buffer, so the next reader blocks on a complete line. -/
theorem shortRead_breaks_counter :
    ∃ final, StepFn.run (inputStep sampleLayout 0)
        (resetTerminal sampleLayout .zeroed 0) shortRead = some final ∧
      ¬ CounterAgrees 0 final ∧ ¬ BlocksWithoutLine 0 final := by
  have hstate : (StepFn.run (inputStep sampleLayout 0)
      (resetTerminal sampleLayout .zeroed 0) shortRead).map
        (fun tty => (tty.newLineReady 0, tty.pending 0)) =
      some (0, [charNewline]) := by decide
  obtain ⟨final, hrun, hfinal⟩ := Option.map_eq_some_iff.mp hstate
  obtain ⟨hcounter, hpending⟩ := Prod.mk.inj hfinal
  refine ⟨final, hrun, ?_, ?_⟩
  · intro hagree
    rw [CounterAgrees, hcounter, hpending] at hagree
    simp at hagree
  · intro hblocks
    have hnone := (terminalRead_eq_none_iff 0).mpr hcounter
    have habsent := (hblocks 0).mp hnone
    rw [hpending] at habsent
    simp at habsent

end PsychOS
