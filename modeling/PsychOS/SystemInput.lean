/-
The input of the terminals in the whole system.  What a step can do to the
bytes typed on a terminal and to its newline counter is said here once: a key
is typed there, or the process that runs belongs to the terminal and reads from
it or starts again.
-/
import PsychOS.KeyboardProgress
import PsychOS.ProcessIsolation
import PsychOS.Redraw
import PsychOS.UserMode

namespace PsychOS

/-- The commands have room, and keys are typed on one of the terminals. -/
def SystemEvent.Regular : SystemEvent → Prop
  | .kernel event => event.Fits
  | .file (.call (.keyTyped terminal _)) => terminal < numTerminals
  | _ => True

instance : DecidablePred SystemEvent.Regular
  | .kernel event => inferInstanceAs (Decidable event.Fits)
  | .file (.call (.keyTyped terminal _)) =>
      inferInstanceAs (Decidable (terminal < numTerminals))
  | .file (.call (.openFile _)) => isTrue trivial
  | .file (.call (.closeFile _)) => isTrue trivial
  | .file (.call (.readFile _ _ _)) => isTrue trivial
  | .file (.call .rtcTick) => isTrue trivial
  | .file (.writeFile _ _ _ _) => isTrue trivial
  | .clock => isTrue trivial

theorem SystemEvent.Regular.fits {event : SystemEvent}
    (hregular : event.Regular) : event.Fits := by
  cases event with
  | kernel event => exact hregular
  | file event => trivial
  | clock => trivial

/-- What is typed on a terminal is the same, and so is its counter. -/
structure SameInput (tty : Tty) (terminal : Nat) (next : Tty) : Prop where
  buffer_eq : next.inputBuffer terminal = tty.inputBuffer terminal
  pending_eq : next.pending terminal = tty.pending terminal
  counter_eq : next.newLineReady terminal = tty.newLineReady terminal

/-- What a step can do to the input of a terminal.  `own` says that it is a call
of a process that belongs to the terminal. -/
inductive InputCase (layout : Layout) (tty : Tty) (terminal : Nat)
    (own : Prop) (next : Tty) : Prop where
  | same (hsame : SameInput tty terminal next)
  | typed (ch : UInt8) (hnext : (keyboardPutc tty terminal ch).1 = next)
  | taken (hown : own) (nbytes : Int) (bytes : List UInt8)
      (hread : terminalRead tty terminal nbytes = some (bytes, next))
  | reset (hown : own) (hnext : resetTerminal layout tty terminal = next)

section Elsewhere

variable {layout : Layout} {tty next : Tty} {terminal t : Nat}

theorem SameInput.of_inputSide (hside : next.inputSide = tty.inputSide) :
    SameInput tty terminal next :=
  ⟨congrFun (congrArg InputSide.inputBuffer hside) terminal,
    Tty.pending_congr hside terminal,
    congrFun (Tty.newLineReady_congr hside) terminal⟩

theorem SameInput.trans {last : Tty} (hfirst : SameInput tty terminal next)
    (hsecond : SameInput next terminal last) : SameInput tty terminal last :=
  ⟨hsecond.buffer_eq.trans hfirst.buffer_eq,
    hsecond.pending_eq.trans hfirst.pending_eq,
    hsecond.counter_eq.trans hfirst.counter_eq⟩

/-- A new ring for another terminal. -/
theorem sameInput_update (hne : t ≠ terminal) (buf : CircularBuffer) :
    SameInput tty t { tty with
      inputBuffer := Function.update tty.inputBuffer terminal buf } := by
  have hbuf : Function.update tty.inputBuffer terminal buf t =
      tty.inputBuffer t := Function.update_of_ne hne _ _
  refine ⟨hbuf, ?_, rfl⟩
  simp only [Tty.pending, InputSide.pending, Tty.inputSide, hbuf]

theorem sameInput_counter (hne : t ≠ terminal) (value : Nat) :
    SameInput tty t { tty with
      newLineReady := Function.update tty.newLineReady terminal value } :=
  ⟨rfl, rfl, Function.update_of_ne hne _ _⟩

/-- A byte for another terminal goes to the block of that terminal. -/
theorem sameInput_bufferByte (hne : t ≠ terminal)
    (hready : tty.InputReady layout terminal)
    (hother : tty.InputReady layout t) (ch : UInt8) :
    SameInput tty t (bufferByte tty terminal ch) := by
  have hcontents : (tty.inputBuffer t).contents (circularBufferPutByte
      tty.inputMem (tty.inputBuffer terminal) ch).1 =
      (tty.inputBuffer t).contents tty.inputMem := by
    apply hother.valid.contents_congr
    intro a hlo hhi
    apply CircularBuffer.putByte_frame hready.valid
    rw [hother.dataStart_eq] at hlo hhi
    rw [hother.maxLen_eq] at hhi
    rw [hready.dataStart_eq, hready.maxLen_eq]
    simp only [Layout.inputBlock, keyboardBufferSize] at hlo hhi ⊢
    omega
  have hbuf : (bufferByte tty terminal ch).inputBuffer t =
      tty.inputBuffer t := Function.update_of_ne hne _ _
  refine ⟨hbuf, ?_, rfl⟩
  simp only [Tty.pending, InputSide.pending, Tty.inputSide, hbuf]
  exact hcontents

/-- Keys for another terminal. -/
theorem sameInput_keyboardPutc (hne : t ≠ terminal)
    (hready : tty.InputReady layout terminal)
    (hother : tty.InputReady layout t) (ch : UInt8) :
    SameInput tty t (keyboardPutc tty terminal ch).1 := by
  have hrefused : SameInput tty t tty := .of_inputSide rfl
  have hbuffered := sameInput_bufferByte hne hready hother ch
  have hprinted (next : Tty)
      (hside : next.inputSide = (bufferByte tty terminal ch).inputSide) :
      SameInput tty t next := hbuffered.trans (.of_inputSide hside)
  unfold keyboardPutc
  dsimp only
  split
  · split
    · exact hrefused
    · split
      · exact hrefused
      · have herased : SameInput tty t (unbufferByte tty terminal) :=
          sameInput_update hne _
        exact herased.trans (.of_inputSide (putcTimes_inputSide _ _ _ _))
  · split
    · split
      · exact hrefused
      · exact (hprinted _ (putcInternal_inputSide _ _ _)).trans
          (sameInput_counter hne _)
    · split
      · split
        · exact hprinted _ (putcTimes_inputSide _ _ _ _)
        · exact hrefused
      · split
        · split
          · exact hprinted _ (putcInternal_inputSide _ _ _)
          · exact hrefused
        · exact hrefused

/-- A read on another terminal. -/
theorem sameInput_terminalRead (hne : t ≠ terminal) {nbytes : Int}
    {bytes : List UInt8}
    (hread : terminalRead tty terminal nbytes = some (bytes, next)) :
    SameInput tty t next := by
  obtain ⟨-, heq⟩ := Option.ite_none_left_eq_some.mp hread
  obtain ⟨-, rfl⟩ := Prod.mk.inj (Option.some.inj heq)
  exact (sameInput_update hne _).trans (sameInput_counter hne _)

theorem sameInput_resetTerminal (hne : t ≠ terminal) :
    SameInput tty t (resetTerminal layout tty terminal) := by
  have hinit : SameInput tty t (initInputBuffer layout tty terminal) :=
    sameInput_update hne _
  have hcounted := hinit.trans (sameInput_counter hne 0)
  exact hcounted.trans
    (.of_inputSide (resetTerminal_inputSide layout tty terminal))

end Elsewhere

namespace InputCase

variable {layout : Layout} {tty next : Tty} {terminal : Nat} {own : Prop}

theorem mono {other : Prop} (hcase : InputCase layout tty terminal own next)
    (himp : own → other) : InputCase layout tty terminal other next := by
  cases hcase with
  | same hsame => exact .same hsame
  | typed ch hnext => exact .typed ch hnext
  | taken hown nbytes bytes hread => exact .taken (himp hown) nbytes bytes hread
  | reset hown hnext => exact .reset (himp hown) hnext

/-- Lines announced are in the buffer after every step. -/
theorem typing (hcase : InputCase layout tty terminal own next)
    (htyping : Typing layout terminal tty) : Typing layout terminal next := by
  cases hcase with
  | same hsame =>
      obtain ⟨hready, hannounced, hfilled⟩ := htyping
      refine ⟨?_, ?_, ?_⟩
      · rw [Tty.InputReady, hsame.buffer_eq]
        exact hready
      · rw [hsame.pending_eq, hsame.counter_eq]
        exact hannounced
      · rw [hsame.pending_eq]
        exact hfilled
  | typed ch hnext => exact hnext ▸ htyping.key ch
  | taken hown nbytes bytes hread => exact htyping.read hread
  | reset hown hnext => exact hnext ▸ resetTerminal_typing layout tty terminal

/-- What the others do does not take a line away.  The counter cannot wrap,
since the lines it counts are in the buffer. -/
theorem counter_ne_zero (hcase : InputCase layout tty terminal own next)
    (htyping : Typing layout terminal tty) (hother : ¬ own)
    (hne : tty.newLineReady terminal ≠ 0) :
    next.newLineReady terminal ≠ 0 := by
  cases hcase with
  | same hsame => exact hsame.counter_eq ▸ hne
  | typed ch hnext =>
      have hle := htyping.counter_le
      simp only [keyboardBufferSize] at hle
      rcases keyboardPutc_cases htyping.ready hnext with ⟨-, hcounter⟩ |
        ⟨-, -, -, -, hcounter⟩ | ⟨-, -, hcounter⟩ | ⟨-, -, -, hcounter⟩
      · rwa [hcounter]
      · rwa [hcounter]
      · rw [hcounter]
        omega
      · rwa [hcounter]
  | taken hown nbytes bytes hread => exact absurd hown hother
  | reset hown hnext => exact absurd hown hother

end InputCase

section Steps

variable {img : Image} {layout : Layout} {k next : Kernel} {t : Nat}

theorem readHandler_input {pcb : Pcb} {tty : Tty} {fd : Nat} {f : FileDesc}
    {nbytes : Int} {fops : FileOps} {outcome : ReadOutcome}
    (hread : readHandler img pcb tty fd f nbytes fops = some outcome) :
    InputCase layout tty t (pcb.terminalNum = t) outcome.tty := by
  have hsame : InputCase layout tty t (pcb.terminalNum = t) tty :=
    .same (.of_inputSide rfl)
  cases fops with
  | stdin =>
      obtain ⟨⟨bytes, after⟩, hline, rfl⟩ := Option.map_eq_some_iff.mp hread
      by_cases hown : pcb.terminalNum = t
      · subst hown
        exact .taken rfl nbytes bytes hline
      · exact .same (sameInput_terminalRead (Ne.symm hown) hline)
  | rtc =>
      simp only [readHandler] at hread
      split_ifs at hread
      all_goals
        obtain rfl := Option.some.inj hread
        exact hsame
  | dir | file | stdout =>
      obtain rfl := Option.some.inj hread
      exact hsame

theorem writeHandler_inputSide {pcb : Pcb} {tty : Tty} {user : Memory UInt8}
    {buf : Nat} {nbytes : Int} (fops : FileOps) :
    (writeHandler pcb tty user buf nbytes fops).tty.inputSide =
      tty.inputSide := by
  cases fops with
  | stdout => exact terminalWrite_inputSide _
  | rtc =>
      simp only [writeHandler]
      split_ifs <;> rfl
  | stdin | dir | file => rfl

theorem tableStep_input {sess last : Session} {event : TableEvent}
    {reply : Reply} (ht : t < numTerminals)
    (hready : ∀ t < numTerminals, sess.tty.InputReady layout t)
    (hregular : (SystemEvent.file event).Regular)
    (hstep : tableStep img sess event = some (last, reply)) :
    InputCase layout sess.tty t (sess.pcb.terminalNum = t ∧
      ¬ (SystemEvent.file event).Interrupts) last.tty := by
  have hsame {own : Prop} : InputCase layout sess.tty t own sess.tty :=
    .same (.of_inputSide rfl)
  cases tableStep_cases hstep with
  | openFile | closeFile | rtcTick => exact hsame
  | readFile fd buf nbytes outcome hread =>
      rcases syscallRead_cases hread with ⟨rfl, -⟩ | ⟨f, fops, -, -, hhandler⟩
      · exact hsame
      · exact (readHandler_input hhandler).mono fun hown => ⟨hown, id⟩
  | keyTyped terminal ch =>
      by_cases hterminal : t = terminal
      · subst hterminal
        exact .typed ch rfl
      · exact .same (sameInput_keyboardPutc hterminal
          (hready terminal hregular) (hready t ht) ch)
  | writeFile user fd buf nbytes =>
      rcases @syscallWrite_cases sess.pcb sess.tty user buf nbytes fd with
        ⟨heq, -⟩ | ⟨f, fops, -, -, -, heq⟩
      · rw [heq]
        exact hsame
      · rw [heq]
        exact .same (.of_inputSide (writeHandler_inputSide fops))

theorem contextSwitch_tty (last target esp ebp : Nat) :
    (contextSwitch layout k last target esp ebp).1.tty = k.tty := by
  unfold contextSwitch resume
  dsimp only
  split <;> rfl

theorem syscallExecute_tty {command : List UInt8} {esp ebp : Nat}
    {junk : Junk} {outcome : Outcome}
    (hcall : syscallExecute img layout k command esp ebp junk =
      (next, outcome)) : next.tty = k.tty := by
  rcases syscallExecute_inv hcall with ⟨-, rfl⟩ | ⟨child, -, hcase⟩
  · rfl
  · rcases hcase with ⟨-, rfl⟩ | ⟨entrypoint, -, rfl⟩ <;> rfl

/-- A program without a parent that halts resets its own terminal. -/
theorem haltProgram_input (k : Kernel) (status : Int) :
    InputCase layout k.tty t (k.currentPcb.terminalNum = t)
      (haltProgram layout k status).1.tty := by
  have hterminal : ((release k k.current).pcb k.current).terminalNum =
      k.currentPcb.terminalNum := by
    rw [release_pcb, Function.update_self,
      (closeDescriptors_sameProcess _ : Pcb.SameProcess _ _)]
    rfl
  unfold haltProgram
  dsimp only
  split
  · by_cases hown : k.currentPcb.terminalNum = t
    · refine .reset hown ?_
      rw [← hown, ← hterminal]
      rfl
    · refine .same ?_
      rw [← hterminal] at hown
      exact sameInput_resetTerminal (Ne.symm hown)
  · exact .same (.of_inputSide rfl)

theorem switchActiveTerminal_inputSide (tty : Tty) (newTerminal : Nat) :
    (switchActiveTerminal layout tty newTerminal).inputSide =
      tty.inputSide := by
  by_cases hnew : newTerminal < numTerminals
  · exact (switchActiveTerminal_fields hnew).2.2.2
  · rw [switchActiveTerminal, if_neg hnew]

theorem systemStep_input {event : SystemEvent} {answer : SystemAnswer}
    (ht : t < numTerminals)
    (hready : ∀ t < numTerminals, k.tty.InputReady layout t)
    (hregular : event.Regular)
    (hstep : systemStep img layout k event = some (next, answer)) :
    InputCase layout k.tty t
      (k.currentPcb.terminalNum = t ∧ ¬ event.Interrupts) next.tty := by
  have hsame {own : Prop} {tty : Tty} (htty : tty = k.tty) :
      InputCase layout k.tty t own tty :=
    .same (.of_inputSide (congrArg Tty.inputSide htty))
  cases systemStep_cases hstep with
  | kernel event outcome hentry =>
      cases kernelEntry_cases hentry with
      | switched target esp ebp =>
          exact hsame (contextSwitch_tty k.current target esp ebp)
      | unswitched => exact hsame rfl
      | executed command esp ebp junk hstack hcall =>
          exact hsame (syscallExecute_tty hcall)
      | halted status hevent hhalt =>
          obtain rfl := congrArg Prod.fst hhalt
          refine (haltProgram_input k status).mono fun hown => ⟨hown, ?_⟩
          rcases hevent with rfl | ⟨code, rfl⟩ <;> exact id
      | activated newTerminal =>
          exact .same (.of_inputSide
            (switchActiveTerminal_inputSide k.tty newTerminal))
  | file event sess reply htable =>
      exact tableStep_input ht hready hregular htable
  | clock => exact hsame (by rw [tickAll_eq])

/-- Lines announced are in the buffers of all terminals. -/
def TypingAll (layout : Layout) (tty : Tty) : Prop :=
  ∀ t < numTerminals, Typing layout t tty

theorem systemStep_typing {event : SystemEvent} {answer : SystemAnswer}
    (htyping : TypingAll layout k.tty) (hregular : event.Regular)
    (hstep : systemStep img layout k event = some (next, answer)) :
    TypingAll layout next.tty := by
  intro t ht
  have hcase := systemStep_input ht (fun t ht => (htyping t ht).ready)
    hregular hstep
  exact hcase.typing (htyping t ht)

/-- One turn of the loop that resets the terminals leaves the others. -/
theorem sameInput_initTerminal {tty : Tty} {terminal : Nat}
    (hne : t ≠ terminal) :
    SameInput tty t (initTerminal layout tty terminal) := by
  have hvideo (videoMemory : Nat → Nat) :
      SameInput tty t { tty with videoMemory := videoMemory } :=
    .of_inputSide rfl
  rw [initTerminal]
  exact (hvideo _).trans (sameInput_resetTerminal hne)

/-- Booting resets all terminals. -/
theorem Booted.typing (hboot : Booted img layout k) :
    TypingAll layout k.tty := by
  obtain ⟨command, junk, memory, -, -, hrun⟩ := hboot
  intro t ht
  rw [kernelRunFirstProgram_tty hrun]
  refine @multipleTerminalInit_rule layout memory.tty
    (fun tty terminal => Typing layout terminal tty) ?_ ?_ t ht
  · intro tty terminal
    rw [initTerminal]
    exact resetTerminal_typing layout _ terminal
  · intro tty terminal t hne htyping
    have hcase : InputCase layout tty t False
        (initTerminal layout tty terminal) :=
      .same (sameInput_initTerminal hne)
    exact hcase.typing htyping

end Steps

end PsychOS
