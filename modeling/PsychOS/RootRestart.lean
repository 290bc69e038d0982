/-
The restart of a root program.  `halt_program` sets the terminal, the
descriptors and the clock of a process without a parent up as booting did, and
enters the program again; it does not load it again.
-/
import PsychOS.UserMode

namespace PsychOS

/-- A terminal with nothing on its screen and nothing typed. -/
structure Tty.Fresh (layout : Layout) (tty : Tty) (terminal : Nat) :
    Prop where
  cells : ∀ i < screenCells,
    tty.vram (screenBase layout tty terminal + i) = blankWord
  cursor : tty.cursorLocation terminal = (0, 0)
  inputBuffer : tty.inputBuffer terminal =
    circularBufferInit (layout.inputBlock terminal) keyboardBufferSize
  newLineReady : tty.newLineReady terminal = 0

/-- The screen, the cursor, the input buffer and the counter of a terminal are
the same. -/
structure SameTerminal (layout : Layout) (left right : Tty)
    (terminal : Nat) : Prop where
  screen : right.screen layout terminal = left.screen layout terminal
  cursor : right.cursorLocation terminal = left.cursorLocation terminal
  inputBuffer : right.inputBuffer terminal = left.inputBuffer terminal
  newLineReady : right.newLineReady terminal = left.newLineReady terminal

section Terminal

variable {layout : Layout} {tty : Tty} {terminal : Nat}

theorem Tty.Fresh.same {left right : Tty} (hleft : left.Fresh layout terminal)
    (hright : right.Fresh layout terminal) :
    SameTerminal layout left right terminal where
  screen := Memory.load_congr fun i hi =>
    (hright.cells i hi).trans (hleft.cells i hi).symm
  cursor := hright.cursor.trans hleft.cursor.symm
  inputBuffer := hright.inputBuffer.trans hleft.inputBuffer.symm
  newLineReady := hright.newLineReady.trans hleft.newLineReady.symm

theorem resetTerminal_vram (layout : Layout) (tty : Tty) (terminal : Nat) :
    (resetTerminal layout tty terminal).vram =
      tty.vram.fill (cellAddr tty terminal 0) blankWord screenCells := by
  simp only [resetTerminal, clearTerminal, setHardwareCursor, initInputBuffer,
    cellAddr]

theorem resetTerminal_cursorLocation (layout : Layout) (tty : Tty)
    (terminal : Nat) :
    (resetTerminal layout tty terminal).cursorLocation =
      Function.update tty.cursorLocation terminal (0, 0) := by
  simp only [resetTerminal, setHardwareCursor, clearTerminal_cursorLocation,
    initInputBuffer, Function.update_idem]

/-- Wherever the driver draws, what was blank stays so. -/
theorem resetTerminal_blank {addr : Nat} (hblank : tty.vram addr = blankWord) :
    (resetTerminal layout tty terminal).vram addr = blankWord := by
  rw [resetTerminal_vram, Memory.fill_apply, hblank, ite_self]

theorem resetTerminal_fresh
    (hvideo : tty.videoMemory terminal =
      getTerminalOutputBuffer layout tty terminal) :
    (resetTerminal layout tty terminal).Fresh layout terminal where
  cells := by
    intro i hi
    rw [screenBase,
      getTerminalOutputBuffer_congr (resetTerminal_activeTerminal tty terminal),
      ← hvideo, resetTerminal_vram, Memory.fill_apply, cellAddr,
      if_pos (by omega)]
  cursor := by rw [resetTerminal_cursorLocation, Function.update_self]
  inputBuffer := by rw [resetTerminal_inputBuffer, Function.update_self]
  newLineReady := resetTerminal_newLineReady layout tty terminal

theorem initTerminal_fresh_other {other : Nat} (hne : terminal ≠ other)
    (hfresh : tty.Fresh layout terminal) :
    (initTerminal layout tty other).Fresh layout terminal := by
  obtain ⟨hactive, -, hcursor, -⟩ := initTerminal_fields layout tty other
  refine ⟨fun i hi => ?_, ?_, ?_, ?_⟩
  · rw [screenBase, getTerminalOutputBuffer_congr hactive]
    exact resetTerminal_blank (hfresh.cells i hi)
  · rw [hcursor, Function.update_of_ne hne]
    exact hfresh.cursor
  · rw [initTerminal, resetTerminal_inputBuffer, Function.update_of_ne hne]
    exact hfresh.inputBuffer
  · rw [initTerminal, resetTerminal_counters, Function.update_of_ne hne]
    exact hfresh.newLineReady

theorem initTerminal_fresh (layout : Layout) (tty : Tty) (terminal : Nat) :
    (initTerminal layout tty terminal).Fresh layout terminal :=
  resetTerminal_fresh (Function.update_self ..)

theorem multipleTerminalInit_fresh {t : Nat} (ht : t < numTerminals) :
    (multipleTerminalInit layout tty).Fresh layout t :=
  multipleTerminalInit_rule (initTerminal_fresh layout)
    initTerminal_fresh_other ht

end Terminal

/-- The same descriptors are open, with the same contents.  What is left in a
free one is overwritten before it is used. -/
def SameDescriptors (left right : Nat → FileDesc) : Prop :=
  ∀ fd < maxFileDescriptors, (right fd).inUse = (left fd).inUse ∧
    ((left fd).inUse = true → right fd = left fd)

/-- What the kernel sets up for the program in a root slot. -/
structure SameSetup (layout : Layout) (start next : Kernel) (slot : Nat) :
    Prop where
  entrypoint : (next.pcb slot).entrypoint = (start.pcb slot).entrypoint
  descriptors : SameDescriptors (start.pcb slot).fa (next.pcb slot).fa
  rtcEnabled : (next.pcb slot).rtcEnabled = (start.pcb slot).rtcEnabled
  terminal : SameTerminal layout start.tty next.tty slot

/-- How much of the page from `PROCESS_LINK_OFFSET` on the program's file
takes. -/
def Image.programLength (img : Image) (name : Memory UInt8) : Nat :=
  match img.readDentryByName name with
  | none => 0
  | some dentry =>
      min (img.fileLength dentry.inodeNum) (processPageSize - processLinkOffset)

/-- The program in the page of a slot, as long as the file that `start` names
for it. -/
def programImage (img : Image) (start k : Kernel) (slot : Nat) : List UInt8 :=
  k.pages.load (getProcessPageFromSlot slot + processLinkOffset)
    (img.programLength (start.pcb slot).text)

/-- Wherever the process in the slot stored to its program, the last byte it
stored is the one that was loaded. -/
def ProgramUntouched (img : Image) (start : Kernel)
    (transitions : List MachineTransition) (slot : Nat) : Prop :=
  ∀ i < img.programLength (start.pcb slot).text,
    ∀ byte ∈ lastStore slot (processLinkOffset + i) transitions,
      byte = start.pages (getProcessPageFromSlot slot + (processLinkOffset + i))

section Restart

variable {img : Image} {layout : Layout} {start k : Kernel}

theorem programLength_le (name : Memory UInt8) :
    img.programLength name ≤ processPageSize - processLinkOffset := by
  rw [Image.programLength]
  split
  · exact Nat.zero_le _
  · exact Nat.min_le_right _ _

/-- What is in the page of a root program at the end is what it stored, and
elsewhere what was loaded. -/
theorem programImage_eq_iff {transitions : List MachineTransition}
    (hpage : PageKept start k transitions) {slot : Nat}
    (hslot : slot < numTerminals) :
    programImage img start k slot = programImage img start start slot ↔
      ProgramUntouched img start transitions slot := by
  have hlength := @programLength_le img (start.pcb slot).text
  have hlink : processLinkOffset ≤ processPageSize := by decide
  rw [programImage, programImage, Memory.load, Memory.load, List.map_inj_left]
  refine forall_congr' fun i => ?_
  rw [List.mem_range]
  refine forall_congr' fun hi => ?_
  rw [Nat.add_assoc, hpage slot hslot (processLinkOffset + i) (by omega)]
  cases lastStore slot (processLinkOffset + i) transitions with
  | none => simp
  | some byte => simp

/-- A process without a parent is the root program of its terminal. -/
theorem RootsKept.root_of_parent (hkept : RootsKept layout start k)
    (hroot : k.currentPcb.parent = none) :
    k.current < numTerminals ∧ k.currentPcb.terminalNum = k.current := by
  obtain ⟨threads, hrep⟩ := hkept.represents
  obtain ⟨terminal, htop⟩ := hrep.current_top
  have hholds := hrep.holds terminal
  cases hchain : threads.chain terminal with
  | root slot =>
      rw [hchain] at htop hholds
      obtain ⟨hslot, hprocess⟩ := hholds
      obtain rfl : slot = k.current := htop
      refine ⟨hslot ▸ terminal.isLt, ?_⟩
      exact hprocess.terminalNum.trans hslot.symm
  | call slot saved caller =>
      -- a process that was executed has a parent
      rw [hchain] at htop hholds
      obtain rfl : slot = k.current := htop
      have hparent := hholds.2.1.parent
      cases hroot.symm.trans hparent

/-- Of the standard descriptors only the inode number is not set. -/
theorem openStdinAndStdout_congr {left right : Pcb} {fd : Nat} (hfd : fd < 2)
    (hinode : ((openStdinAndStdout right).fa fd).inode =
      ((openStdinAndStdout left).fa fd).inode) :
    (openStdinAndStdout right).fa fd = (openStdinAndStdout left).fa fd := by
  rcases (by omega : fd = 0 ∨ fd = 1) with rfl | rfl
  · exact (FileDesc.mk.injEq ..).mpr ⟨rfl, rfl, rfl, hinode⟩
  · exact (FileDesc.mk.injEq ..).mpr ⟨rfl, rfl, rfl, hinode⟩

theorem sameDescriptors_of_unused {left right : Nat → FileDesc}
    {leftClock rightClock : Bool} (hleft : Unused left leftClock)
    (hright : Unused right rightClock)
    (hstandard : ∀ fd < 2, right fd = left fd) :
    SameDescriptors left right := by
  intro fd hfd
  by_cases hlow : fd < 2
  · rw [hstandard fd hlow]
    exact ⟨rfl, fun _ => rfl⟩
  · have hfree := hleft.table.free fd (by omega) hfd
    refine ⟨(hright.table.free fd (by omega) hfd).trans hfree.symm, ?_⟩
    intro huse
    rw [hfree] at huse
    cases huse

theorem RootsKept.restart_atStart (hkept : RootsKept layout start k) :
    AtStart (restartProgram layout (release k k.current) k.current).1
      k.current := by
  obtain ⟨threads, hrep⟩ := hkept.represents
  obtain ⟨hlt, huse, -⟩ := hrep.current_process
  exact (restart_clean hkept.clean hlt
    (release_vacant hkept.clean hlt huse)).2

theorem RootsKept.restart_current (hkept : RootsKept layout start k)
    (hroot : k.currentPcb.parent = none) (status : Int) :
    (haltProgram layout k status).1.current = k.current := by
  obtain ⟨hlt, hstack, -⟩ := hkept.restart_atStart
  obtain ⟨threads, hrep⟩ := hkept.represents
  have hslotNum : ((release k k.current).pcb k.current).slotNum = k.current :=
    (release_field ProcessEntry.slotNum _ _ fun _ => rfl).trans
      (hrep.slotNum _ hlt)
  rw [restartProgram_pcb, Function.update_self] at hstack
  rw [haltProgram_restarts status hroot, Kernel.current, hstack]
  change slotOfEsp (getKernelStackBaseFromSlot
    ((release k k.current).pcb k.current).slotNum) = k.current
  rw [hslotNum]
  exact slotOfEsp_base hlt

/-- Whatever has happened, a root program finds what it found after booting. -/
theorem restart_sameSetup (hboot : ZeroBooted img layout start)
    (hkept : RootsKept layout start k) (hroot : k.currentPcb.parent = none)
    (status : Int) :
    SameSetup layout start (haltProgram layout k status).1 k.current := by
  obtain ⟨hslot, hterminal⟩ := hkept.root_of_parent hroot
  obtain ⟨hfa, hunused⟩ := hboot.root hslot
  have hstart := hkept.restart_atStart.unused
  have hprogram := (hkept.program k.current hslot).trans
    (@haltProgram_sameProgram layout k status k.current)
  rw [haltProgram_restarts status hroot] at hprogram ⊢
  refine ⟨hprogram.entrypoint_eq, ?_, hstart.clock.trans hunused.clock.symm, ?_⟩
  · -- `open_stdin_and_stdout` sets all but the inode numbers, and those
    -- nothing has changed since boot
    refine sameDescriptors_of_unused hunused hstart fun fd hfd => ?_
    have hinode := hprogram.inode_eq fd hfd
    rw [hfa] at hinode ⊢
    rw [restartProgram_pcb, Function.update_self] at hinode ⊢
    exact openStdinAndStdout_congr hfd hinode
  · obtain ⟨command, junk, memory, -, -, hrun⟩ := hboot
    have hfresh : start.tty.Fresh layout k.current := by
      rw [kernelRunFirstProgram_tty hrun]
      exact multipleTerminalInit_fresh hslot
    refine hfresh.same ?_
    have hnum : ((release k k.current).pcb k.current).terminalNum =
        k.current :=
      (release_field ProcessEntry.terminalNum _ _ fun _ => rfl).trans hterminal
    change (resetTerminal layout k.tty
      ((release k k.current).pcb k.current).terminalNum).Fresh layout k.current
    rw [hnum]
    exact resetTerminal_fresh (hkept.wired k.current hslot)

end Restart

/-- Whatever the system and its programs did since booting, the process without
a parent that halts is the root program of its terminal.  It is entered again
at the same entry point, with the same descriptors, clock and terminal as after
booting.  Its program is the same exactly if it has not changed it itself. -/
theorem restart_fresh_iff {img : Image} {layout : Layout} {start k : Kernel}
    {transitions : List MachineTransition} {status : Int}
    (hboot : ZeroBooted img layout start)
    (hexec : Execution (machineStep img layout) start transitions k)
    (hfits : ∀ step ∈ transitions, step.event.Fits)
    (hroot : k.currentPcb.parent = none) :
    k.current < numTerminals ∧
      (haltProgram layout k status).1.current = k.current ∧
      (haltProgram layout k status).2 =
        .entered k.current (start.pcb k.current).entrypoint ∧
      SameSetup layout start (haltProgram layout k status).1 k.current ∧
      (programImage img start (haltProgram layout k status).1 k.current =
          programImage img start start k.current ↔
        ProgramUntouched img start transitions k.current) := by
  obtain ⟨hkept, hpage⟩ := machine_kept hboot hexec hfits
  have hslot := (hkept.root_of_parent hroot).1
  have hsetup := restart_sameSetup hboot hkept hroot status
  refine ⟨hslot, ?_, ?_, hsetup, ?_⟩
  · exact hkept.restart_current hroot status
  · rw [← hsetup.entrypoint, haltProgram_restarts status hroot]
    rfl
  · rw [← programImage_eq_iff hpage hslot, haltProgram_restarts status hroot]
    rfl

/-- The program opens a file, stores below itself and draws before it halts,
and its screen is redrawn. -/
def busyEvents : List MachineEvent :=
  [.system (.file (.call (.openFile [115]))), .store 0 7, .draw 0x5C000 0,
    .redraw 0]

theorem busyProgram_restarts_fresh : ∃ transitions k,
    Execution (machineStep shellImage sampleLayout) sampleKernel transitions
        k ∧
      transitions.map Transition.event = busyEvents ∧
      k.currentPcb.parent = none ∧ k.current = 0 ∧
      SameSetup sampleLayout sampleKernel (haltProgram sampleLayout k 0).1 0 ∧
      programImage shellImage sampleKernel (haltProgram sampleLayout k 0).1 0 =
        programImage shellImage sampleKernel sampleKernel 0 ∧
      ProgramUntouched shellImage sampleKernel transitions 0 := by
  have hrun : ((trace (machineStep shellImage sampleLayout) sampleKernel
      busyEvents).map fun result =>
        (result.2.currentPcb.parent, result.2.current,
          programImage shellImage sampleKernel
            (haltProgram sampleLayout result.2 0).1 0)) =
      some (none, 0, programImage shellImage sampleKernel sampleKernel 0) := by
    decide +kernel
  have hall : ∀ event ∈ busyEvents, event.Fits := by decide
  obtain ⟨⟨transitions, k⟩, htrace, heq⟩ := Option.map_eq_some_iff.mp hrun
  simp only [Prod.mk.injEq] at heq
  obtain ⟨hroot, hcurrent, himage⟩ := heq
  obtain ⟨hexec, hevents⟩ := trace_execution htrace
  have hfits : ∀ step ∈ transitions, step.event.Fits := fun step hmem =>
    hall step.event (trace_event_mem htrace hmem)
  obtain ⟨-, -, -, hsetup, hiff⟩ := @restart_fresh_iff shellImage sampleLayout
    sampleKernel k transitions 0 sampleKernel_zeroBooted hexec hfits hroot
  rw [hcurrent] at hsetup hiff
  exact ⟨transitions, k, hexec, hevents, hroot, hcurrent, hsetup, himage,
    hiff.mp himage⟩

/-- A program that overwrites its first byte and halts runs on with that byte
changed. -/
theorem changed_program_restarted : ∃ transitions k,
    Execution (machineStep shellImage sampleLayout) sampleKernel transitions
        k ∧
      transitions.map Transition.event = [.store processLinkOffset 0] ∧
      k.currentPcb.parent = none ∧
      (haltProgram sampleLayout k 0).2 = .entered 0 0x8040000 ∧
      (programImage shellImage sampleKernel sampleKernel 0).head? =
        some 0x7F ∧
      (programImage shellImage sampleKernel
        (haltProgram sampleLayout k 0).1 0).head? = some 0 := by
  have hrun : ((trace (machineStep shellImage sampleLayout) sampleKernel
      [.store processLinkOffset 0]).map fun result =>
        (result.2.currentPcb.parent, (haltProgram sampleLayout result.2 0).2,
          (programImage shellImage sampleKernel
            (haltProgram sampleLayout result.2 0).1 0).head?)) =
      some (none, .entered 0 0x8040000, some 0) := by
    decide +kernel
  have hloaded : (programImage shellImage sampleKernel sampleKernel 0).head? =
      some 0x7F := by decide +kernel
  obtain ⟨⟨transitions, k⟩, htrace, heq⟩ := Option.map_eq_some_iff.mp hrun
  simp only [Prod.mk.injEq] at heq
  obtain ⟨hroot, hentered, himage⟩ := heq
  obtain ⟨hexec, hevents⟩ := trace_execution htrace
  exact ⟨transitions, k, hexec, hevents, hroot, hentered, hloaded, himage⟩

end PsychOS
