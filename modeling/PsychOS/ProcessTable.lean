/-
What the process calls do to the process table.  The part of the kernel state
that decides which process runs and what it sees is cut out, and every call is
described by its effect on that part.
-/
import PsychOS.DescriptorCalls
import PsychOS.FileContents
import PsychOS.Kernel
import PsychOS.Lib.NestedCalls

namespace PsychOS

/-- The fields of a PCB that tie processes together. -/
structure ProcessEntry where
  parent : Option Nat
  processPdPtr : Nat
  esp : Nat
  ebp : Nat
  slotNum : Nat
  inUse : Bool
  terminalNum : Nat
  status : Status

def Pcb.entry (pcb : Pcb) : ProcessEntry where
  parent := pcb.parent
  processPdPtr := pcb.processPdPtr
  esp := pcb.esp
  ebp := pcb.ebp
  slotNum := pcb.slotNum
  inUse := pcb.inUse
  terminalNum := pcb.terminalNum
  status := pcb.status

/-- The process table, the stack in use, the address space and the terminal on
the screen. -/
@[ext]
structure Core where
  table : Nat → ProcessEntry
  esp : Nat
  cr3 : Nat
  paging : Memory Nat
  activeTerminal : Nat

def Kernel.core (k : Kernel) : Core where
  table := fun slot => (k.pcb slot).entry
  esp := k.esp
  cr3 := k.cr3
  paging := k.paging
  activeTerminal := k.tty.activeTerminal

namespace Core

def current (c : Core) : Nat := slotOfEsp c.esp

def modify (c : Core) (slot : Nat) (f : ProcessEntry → ProcessEntry) : Core :=
  { c with table := Function.update c.table slot (f (c.table slot)) }

/-- `get_terminal_output_buffer`. -/
def outputBuffer (layout : Layout) (c : Core) (terminal : Nat) : Nat :=
  if terminal = c.activeTerminal then videoPhysAddr
  else layout.outputBufferOf terminal

def resume (c : Core) (next : Nat) : Core :=
  if (c.table next).esp = 0 then
    { c with esp := getKernelStackBaseFromSlot (c.table next).slotNum }
  else { c with esp := (c.table next).esp }

def contextSwitch (layout : Layout) (c : Core) (last next esp ebp : Nat) :
    Core :=
  let c := { c with
    paging := setProcessVmemPage c.paging (c.table next).slotNum
      (c.outputBuffer layout (c.table next).terminalNum)
    cr3 := (c.table next).processPdPtr }
  let c := c.modify last fun entry => { entry with esp := esp, ebp := ebp }
  c.resume next

/-- A successful `execute` that starts `child`. -/
def execute (layout : Layout) (c : Core) (parent child esp ebp : Nat)
    (junk : Junk) : Core :=
  let terminal := (c.table parent).terminalNum
  let vmemPtr := c.outputBuffer layout terminal
  let c := { c with
    paging := setProcessVmemPage
      (setupProcessPaging layout junk c.paging (getProcessPageFromSlot child)
        child vmemPtr) child vmemPtr
    cr3 := getProcessPd child
    esp := getKernelStackBaseFromSlot child }
  let c := c.modify child fun entry => { entry with
    processPdPtr := getProcessPd child
    parent := some parent
    inUse := true
    terminalNum := terminal
    status := .running }
  let c := c.modify parent fun entry => { entry with status := .blocked }
  c.modify parent fun entry => { entry with esp := esp, ebp := ebp }

def release (c : Core) (child : Nat) : Core :=
  c.modify child fun entry => { entry with inUse := false }

def returnTo (c : Core) (child parent : Nat) : Core :=
  let c := c.modify child fun entry => { entry with status := .none }
  let c := c.modify parent fun entry => { entry with status := .running }
  { c with cr3 := (c.table parent).processPdPtr, esp := (c.table parent).esp }

def restart (c : Core) (child : Nat) : Core :=
  let c := c.modify child fun entry =>
    { entry with parent := none, inUse := true, status := .running }
  { c with esp := getKernelStackBaseFromSlot (c.table child).slotNum }

end Core

@[simp]
theorem core_current (k : Kernel) : k.core.current = k.current := rfl

/-- A change of a PCB shows in the table as far as the entry changes. -/
theorem core_modify (k : Kernel) (slot : Nat) {f : Pcb → Pcb}
    {g : ProcessEntry → ProcessEntry}
    (hentry : (f (k.pcb slot)).entry = g (k.pcb slot).entry) :
    (k.modify slot f).core = k.core.modify slot g := by
  simp only [Kernel.core, Core.modify, Kernel.modify, Core.mk.injEq, and_true]
  funext other
  by_cases hsame : other = slot
  · subst hsame
    rw [Function.update_self, Function.update_self, hentry]
  · rw [Function.update_of_ne hsame, Function.update_of_ne hsame]

theorem core_modify_same (k : Kernel) (slot : Nat) {f : Pcb → Pcb}
    (hentry : (f (k.pcb slot)).entry = (k.pcb slot).entry) :
    (k.modify slot f).core = k.core := by
  rw [@core_modify k slot f id hentry, Core.modify, id, Function.update_eq_self]

/-- Fields a change of one process leaves alone are the same in all. -/
theorem update_keeps {α β γ : Type} [DecidableEq α] (p : β → γ) (f : α → β)
    {a : α} {b : β} (hkeep : p b = p (f a)) (other : α) :
    p (Function.update f a b other) = p (f other) := by
  by_cases hsame : other = a
  · rw [hsame, Function.update_self, hkeep]
  · rw [Function.update_of_ne hsame]

section Effects

variable {img : Image} {layout : Layout} {k : Kernel}

theorem setKernelStack_core (k : Kernel) (stack : Nat) :
    (k.setKernelStack stack).core = k.core := rfl

theorem switchToRing3_core (k : Kernel) :
    k.switchToRing3.core = { k.core with esp := k.esp0 } := rfl

theorem resume_core (k : Kernel) (next : Nat) :
    (resume k next).1.core = k.core.resume next := by
  rw [resume, apply_ite Prod.fst, apply_ite Kernel.core]
  rfl

theorem core_saveRegs (k : Kernel) (slot esp ebp : Nat) :
    (k.modify slot fun pcb => { pcb with esp := esp, ebp := ebp }).core =
      k.core.modify slot fun entry => { entry with esp := esp, ebp := ebp } :=
  core_modify k slot rfl

theorem contextSwitch_core (last next esp ebp : Nat) :
    (contextSwitch layout k last next esp ebp).1.core =
      k.core.contextSwitch layout last next esp ebp := by
  rw [contextSwitch, resume_core, core_saveRegs]
  rfl

/-- What the loop of `halt_program` over the descriptors does. -/
def closeDescriptors (pcb : Pcb) : Pcb :=
  (List.range maxFileDescriptors).foldl
    (fun pcb (fd : Nat) => (syscallClose pcb fd).1) pcb

theorem closeDescriptors_sameProcess (pcb : Pcb) :
    pcb.SameProcess (closeDescriptors pcb) := by
  unfold closeDescriptors
  induction List.range maxFileDescriptors generalizing pcb with
  | nil => exact .refl pcb
  | cons fd rest ih => exact (syscallClose_sameProcess pcb fd).trans (ih _)

theorem Pcb.SameProcess.entry_eq {pcb next : Pcb}
    (hsame : pcb.SameProcess next) :
    next.entry = pcb.entry := by
  rw [hsame]
  rfl

theorem openStdinAndStdout_core (k : Kernel) (slot : Nat) :
    (k.modify slot openStdinAndStdout).core = k.core :=
  core_modify_same k slot rfl

theorem openStdinAndStdout_other (pcb : Pcb) {fd : Nat} (hfd : 2 ≤ fd) :
    (openStdinAndStdout pcb).fa fd = pcb.fa fd := by
  simp only [openStdinAndStdout, Pcb.setFd]
  rw [Function.update_of_ne (by omega), Function.update_of_ne (by omega)]

/-- Bytes that have room change only the text. -/
theorem writeBytes_text {bytes : List UInt8} {offset : Nat} (pcb : Pcb)
    (hroom : offset + bytes.length ≤ entrypointOffset) :
    pcb.writeBytes offset bytes =
      { pcb with text := pcb.text.storeList offset bytes } := by
  induction bytes generalizing pcb offset with
  | nil => rfl
  | cons byte rest ih =>
      rw [List.length_cons] at hroom
      have hbyte : pcb.writeByte offset byte =
          { pcb with text := pcb.text.store offset byte } :=
        if_pos (by omega)
      rw [Pcb.writeBytes, ih (pcb.writeByte offset byte) (by omega), hbyte]
      rfl

theorem writeBytes_concat (pcb : Pcb) (offset : Nat) (bytes : List UInt8)
    (byte : UInt8) :
    pcb.writeBytes offset (bytes ++ [byte]) =
      (pcb.writeBytes offset bytes).writeByte (offset + bytes.length)
        byte := by
  induction bytes generalizing pcb offset with
  | nil => rfl
  | cons head rest ih =>
      rw [List.cons_append, Pcb.writeBytes, ih, Pcb.writeBytes,
        List.length_cons, Nat.add_assoc, Nat.add_comm 1]

/-- What `parse_command` stores at `program_name`. -/
def nameField (command : List UInt8) : List UInt8 :=
  strncpy (cString command) (lenName command) ++ [0]

/-- What it stores at `args`. -/
def argsField (command : List UInt8) : List UInt8 :=
  strncpy (cString (command.drop (lenName command + 1))) (lenArgs command) ++
    [0]

@[simp]
theorem nameField_length (command : List UInt8) :
    (nameField command).length = lenName command + 1 := by
  simp [nameField, strncpy, strncpyFrom_length]

@[simp]
theorem argsField_length (command : List UInt8) :
    (argsField command).length = lenArgs command + 1 := by
  simp [argsField, strncpy, strncpyFrom_length]

theorem parseCommand_eq_writeBytes (command : List UInt8) (pcb : Pcb) :
    parseCommand command pcb = (pcb.writeBytes 0 (nameField command)).writeBytes
      maxProgramNameLength (argsField command) := by
  have hcopied {src : Memory UInt8} {n : Nat} : (strncpy src n).length = n :=
    strncpyFrom_length src 0 n
  rw [nameField, writeBytes_concat, argsField, writeBytes_concat, hcopied,
    hcopied, Nat.zero_add, parseCommand]
  by_cases hspace : cString command (lenName command) = 32
  · rw [if_pos hspace]
  · -- there are no arguments to copy
    have hnone : lenArgs command = 0 := if_neg hspace
    rw [if_neg hspace, hnone]
    rfl

theorem parseCommand_text {command : List UInt8}
    (hfits : commandEnd command ≤ entrypointOffset) (pcb : Pcb) :
    parseCommand command pcb = { pcb with
      text := (pcb.text.storeList 0 (nameField command)).storeList
        maxProgramNameLength (argsField command) } := by
  have hname : lenName command + 1 ≤ entrypointOffset :=
    Nat.le_trans (Nat.le_max_left _ _) hfits
  have hargs : maxProgramNameLength + lenArgs command + 1 ≤
      entrypointOffset := Nat.le_trans (Nat.le_max_right _ _) hfits
  rw [parseCommand_eq_writeBytes, writeBytes_text, writeBytes_text]
  · rwa [nameField_length, Nat.zero_add]
  · rwa [argsField_length]

theorem commandEnd_le_of_length {command : List UInt8}
    (hlength : command.length ≤ 127) :
    commandEnd command ≤ entrypointOffset := by
  have hname : lenName command ≤ command.length :=
    (List.takeWhile_sublist _).length_le
  have hargs : lenArgs command ≤ command.length := by
    rw [lenArgs]
    split
    · exact Nat.le_trans (List.takeWhile_sublist _).length_le
        (List.drop_sublist _ _).length_le
    · exact Nat.zero_le _
  simp only [commandEnd, entrypointOffset, maxProgramNameLength,
    maxArgsLength]
  omega

theorem covers_of_fits {command : List UInt8}
    (hfits : commandEnd command ≤ entrypointOffset) : k.Covers command := by
  refine ⟨Nat.le_trans hfits (by decide), ?_⟩
  intro child hfree
  rw [Kernel.namedPcb, parseCommand_text hfits]
  exact List.mem_range.mp (List.mem_of_find?_eq_some hfree)

/-- Every command of at most 127 bytes can be executed at any time. -/
theorem kernelStep_execute {command : List UInt8} {esp ebp : Nat}
    {junk : Junk} (hlength : command.length ≤ 127) (hstack : k.OnStack esp) :
    kernelStep img layout k (.execute command esp ebp junk) =
      some (syscallExecute img layout k command esp ebp junk) := by
  have hfits := commandEnd_le_of_length hlength
  have hentry : kernelEntry img layout k (.execute command esp ebp junk) =
      some (syscallExecute img layout k command esp ebp junk) :=
    if_pos ⟨hstack, covers_of_fits hfits⟩
  exact (if_pos hfits).trans hentry

theorem startProcess_core {k : Kernel}
    {parent child entrypoint esp ebp : Nat} {junk : Junk}
    (hslot : (k.pcb child).slotNum = child) :
    (startProcess layout k parent child entrypoint esp ebp junk).core =
      k.core.execute layout parent child esp ebp junk := by
  unfold startProcess
  dsimp only
  rw [hslot, switchToRing3_core, core_saveRegs, setKernelStack_core,
    openStdinAndStdout_core,
    core_modify _ parent (g := fun entry => { entry with status := .blocked })
      rfl,
    core_modify _ child (g := fun entry => { entry with
      processPdPtr := getProcessPd child
      parent := some parent
      inUse := true
      terminalNum := (k.pcb parent).terminalNum
      status := .running }) rfl]
  rfl

theorem freeSlot_spec {child : Nat} (hfree : k.freeSlot = some child) :
    child < maxProcesses ∧ (k.pcb child).inUse = false := by
  refine ⟨List.mem_range.mp (List.mem_of_find?_eq_some hfree), ?_⟩
  simpa using List.find?_some hfree

/-- An `execute` that fails took no slot, or named one and loaded into its
page; else it goes on to start the process in that slot. -/
theorem syscallExecute_inv {command : List UInt8} {esp ebp : Nat}
    {junk : Junk} {outcome : Outcome}
    (hcall : syscallExecute img layout k command esp ebp junk =
      (next, outcome)) :
    (outcome = .returned (-1) ∧ next = k) ∨
      ∃ child, k.freeSlot = some child ∧
        let loading : Kernel :=
          { k.modify child fun _ => k.namedPcb command child with
            pages := (loadProgramIntoSlot img k.pages
              (k.namedPcb command child).text
              (k.namedPcb command child).slotNum).1 }
        (outcome = .returned (-1) ∧ next = loading) ∨
          ∃ entrypoint, outcome = .entered child entrypoint ∧
            next = startProcess layout loading k.current child entrypoint esp
              ebp junk := by
  unfold syscallExecute at hcall
  cases hfree : k.freeSlot with
  | none =>
      simp only [hfree] at hcall
      obtain ⟨rfl, rfl⟩ := Prod.mk.inj hcall
      exact Or.inl ⟨rfl, rfl⟩
  | some child =>
      simp only [hfree] at hcall
      refine Or.inr ⟨child, rfl, ?_⟩
      split at hcall
      · obtain ⟨rfl, rfl⟩ := Prod.mk.inj hcall
        exact Or.inl ⟨rfl, rfl⟩
      · obtain ⟨rfl, rfl⟩ := Prod.mk.inj hcall
        exact Or.inr ⟨_, rfl, rfl⟩

/-- An `execute` of a command that has room, as far as the table shows it. -/
theorem syscallExecute_cases {command : List UInt8} {esp ebp : Nat}
    {junk : Junk} {outcome : Outcome}
    (hfits : commandEnd command ≤ entrypointOffset)
    (hslots : ∀ slot < maxProcesses, (k.pcb slot).slotNum = slot)
    (hcall : syscallExecute img layout k command esp ebp junk =
      (next, outcome)) :
    (outcome = .returned (-1) ∧ next.core = k.core) ∨
      ∃ child entrypoint, child < maxProcesses ∧
        (k.pcb child).inUse = false ∧ outcome = .entered child entrypoint ∧
        next.core = k.core.execute layout k.current child esp ebp junk := by
  rcases syscallExecute_inv hcall with ⟨rfl, rfl⟩ | ⟨child, hfree, hcase⟩
  · exact Or.inl ⟨rfl, rfl⟩
  · obtain ⟨hlt, hunused⟩ := freeSlot_spec hfree
    have hnamed := parseCommand_text hfits
      { k.pcb child with slotNum := child }
    have hsame : (k.modify child fun _ => k.namedPcb command child).core =
        k.core := by
      apply core_modify_same
      rw [Kernel.namedPcb, hnamed]
      simp only [Pcb.entry, hslots child hlt]
    rcases hcase with ⟨rfl, rfl⟩ | ⟨entrypoint, rfl, rfl⟩
    · exact Or.inl ⟨rfl, hsame⟩
    · refine Or.inr ⟨child, entrypoint, hlt, hunused, rfl, ?_⟩
      rw [startProcess_core]
      · exact congrArg
          (fun c => c.execute layout k.current child esp ebp junk) hsame
      · simp only [Kernel.modify, Function.update_self, Kernel.namedPcb,
          hnamed]

theorem release_core (k : Kernel) (child : Nat) :
    (release k child).core = k.core.release child := by
  unfold release
  rw [core_modify_same]
  · exact core_modify k child rfl
  · exact (closeDescriptors_sameProcess _).entry_eq

theorem setHardwareCursor_activeTerminal (tty : Tty)
    (terminal x y : Nat) :
    (setHardwareCursor tty terminal x y).activeTerminal =
      tty.activeTerminal :=
  rfl

theorem resetTerminal_activeTerminal (tty : Tty) (terminal : Nat) :
    (resetTerminal layout tty terminal).activeTerminal =
      tty.activeTerminal := by
  rw [resetTerminal, setHardwareCursor_activeTerminal, clearTerminal]
  dsimp only
  rw [setHardwareCursor_activeTerminal, initInputBuffer]

/-- Of the terminals only the choice of the active one counts. -/
theorem core_withTty (k : Kernel) {tty : Tty}
    (hactive : tty.activeTerminal = k.tty.activeTerminal) :
    { k with tty := tty }.core = k.core := by
  simp only [Kernel.core, hactive]

theorem restartProgram_core (k : Kernel) (child : Nat) :
    (restartProgram layout k child).1.core = k.core.restart child := by
  rw [← core_withTty k (@resetTerminal_activeTerminal layout k.tty
    (k.pcb child).terminalNum)]
  unfold restartProgram
  dsimp only
  rw [switchToRing3_core, setKernelStack_core, openStdinAndStdout_core,
    core_modify _ child (g := fun entry =>
      { entry with parent := none, inUse := true, status := .running }) rfl]
  refine Core.ext rfl ?_ rfl rfl rfl
  simp only [Core.restart, Core.modify, Kernel.modify, Kernel.setKernelStack,
    Function.update_self]
  rfl

theorem returnToParent_core (k : Kernel) (child parent : Nat) (status : Int) :
    (returnToParent k child parent status).1.core =
      k.core.returnTo child parent := by
  have hchild : (k.modify child fun pcb => { pcb with status := .none }).core =
      k.core.modify child fun entry => { entry with status := .none } :=
    core_modify k child rfl
  unfold returnToParent Core.returnTo
  dsimp only
  rw [← hchild, ← core_modify _ parent
    (f := fun pcb => { pcb with status := .running }) rfl]
  rfl

theorem release_field {β : Type} (p : ProcessEntry → β) (child slot : Nat)
    (hkeep : ∀ entry, p { entry with inUse := false } = p entry) :
    p ((release k child).pcb slot).entry = p (k.pcb slot).entry := by
  have hcore := congrArg (fun c => p (c.table slot)) (release_core k child)
  exact hcore.trans (update_keeps p k.core.table (hkeep _) slot)

theorem returnToParent_outcome (k : Kernel) (child parent : Nat)
    (status : Int) :
    (returnToParent k child parent status).2 =
      .executeReturned (k.pcb parent).esp (k.pcb parent).ebp status := by
  have hregs (p : Pcb → Nat)
      (hkeep : ∀ pcb status, p { pcb with status := status } = p pcb) :
      p (((k.modify child fun pcb => { pcb with status := .none }).modify
        parent fun pcb => { pcb with status := .running }).pcb parent) =
        p (k.pcb parent) :=
    (update_keeps p _ (hkeep _ _) parent).trans
      (update_keeps p _ (hkeep _ _) parent)
  exact congrArg₂ (fun esp ebp => Outcome.executeReturned esp ebp status)
    (hregs Pcb.esp fun _ _ => rfl) (hregs Pcb.ebp fun _ _ => rfl)

/-- A `halt` of a process with a parent. -/
theorem haltProgram_parent {parent : Nat} (status : Int)
    (hparent : (k.pcb k.current).parent = some parent) :
    (haltProgram layout k status).1.core =
        (k.core.release k.current).returnTo k.current parent ∧
      (haltProgram layout k status).2 =
        .executeReturned (k.pcb parent).esp (k.pcb parent).ebp status := by
  have hreleased : ((release k k.current).pcb k.current).parent =
      some parent :=
    (release_field ProcessEntry.parent _ _ fun _ => rfl).trans hparent
  have hhalt : haltProgram layout k status =
      returnToParent (release k k.current) k.current parent status := by
    rw [haltProgram, hreleased]
  have hesp : ((release k k.current).pcb parent).esp = (k.pcb parent).esp :=
    release_field ProcessEntry.esp _ _ fun _ => rfl
  have hebp : ((release k k.current).pcb parent).ebp = (k.pcb parent).ebp :=
    release_field ProcessEntry.ebp _ _ fun _ => rfl
  rw [hhalt, returnToParent_core, release_core, returnToParent_outcome, hesp,
    hebp]
  exact ⟨rfl, rfl⟩

theorem haltProgram_restarts (status : Int)
    (hparent : (k.pcb k.current).parent = none) :
    haltProgram layout k status =
      restartProgram layout (release k k.current) k.current := by
  have hreleased : ((release k k.current).pcb k.current).parent = none :=
    (release_field ProcessEntry.parent _ _ fun _ => rfl).trans hparent
  rw [haltProgram, hreleased]

/-- A `halt` of a root program. -/
theorem haltProgram_root (status : Int)
    (hparent : (k.pcb k.current).parent = none) :
    (haltProgram layout k status).1.core =
        (k.core.release k.current).restart k.current ∧
      ∃ entrypoint, (haltProgram layout k status).2 =
        .entered k.current entrypoint := by
  rw [haltProgram_restarts status hparent, restartProgram_core, release_core]
  exact ⟨rfl, _, rfl⟩

end Effects

/-- The calls among processes, by terminal and slot; a caller leaves its stack
and frame pointers behind. -/
abbrev ProcessLabel := CallLabel (Fin numTerminals) Nat (Nat × Nat)

/-- What a kernel entry can do to the core, and the call it amounts to. -/
inductive CoreStep (layout : Layout) (c : Core) :
    KernelEvent → ProcessLabel → Core → Prop where
  | idle (esp ebp : Nat) : CoreStep layout c (.tick esp ebp) .silent c
  | rejected (command : List UInt8) (esp ebp : Nat) (junk : Junk) :
      CoreStep layout c (.execute command esp ebp junk) .silent c
  | activate (newTerminal : Nat) :
      CoreStep layout c (.switchTerminal newTerminal) .silent
        { c with activeTerminal :=
          if newTerminal < numTerminals then newTerminal
          else c.activeTerminal }
  | switch (event : KernelEvent) (next esp ebp : Nat)
      (hevent : event = .timer next esp ebp ∨ event = .tick esp ebp)
      (hstack : slotOfEsp esp = c.current) (hnext : next < maxProcesses)
      (hinUse : (c.table next).inUse = true)
      (hstatus : (c.table next).status = .running) :
      CoreStep layout c event .silent
        (c.contextSwitch layout c.current next esp ebp)
  | execute (command : List UInt8) (child esp ebp : Nat) (junk : Junk)
      (hstack : slotOfEsp esp = c.current) (hchild : child < maxProcesses)
      (hfree : (c.table child).inUse = false) :
      CoreStep layout c (.execute command esp ebp junk)
        (.call (Fin.ofNat _ (c.table c.current).terminalNum) c.current child
          (esp, ebp))
        (c.execute layout c.current child esp ebp junk)
  | halt (event : KernelEvent) (parent : Nat)
      (hevent : event = .exception ∨ ∃ status, event = .halt status)
      (hparent : (c.table c.current).parent = some parent) :
      CoreStep layout c event
        (.ret (Fin.ofNat _ (c.table c.current).terminalNum) parent c.current
          ((c.table parent).esp, (c.table parent).ebp))
        ((c.release c.current).returnTo c.current parent)
  | restart (event : KernelEvent)
      (hevent : event = .exception ∨ ∃ status, event = .halt status)
      (hparent : (c.table c.current).parent = none) :
      CoreStep layout c event .silent
        ((c.release c.current).restart c.current)

/-- What a transition shows of the calls: a successful `execute`, or a `halt`
that returns from one. -/
def callLabel (step : Transition Kernel KernelEvent Outcome) : ProcessLabel :=
  let terminal := Fin.ofNat _ step.before.currentPcb.terminalNum
  match step.event, step.answer, step.before.currentPcb.parent with
  | .execute _ esp ebp _, .entered child _, _ =>
      .call terminal step.before.current child (esp, ebp)
  | .halt _, .executeReturned esp ebp _, some parent =>
      .ret terminal parent step.before.current (esp, ebp)
  | .exception, .executeReturned esp ebp _, some parent =>
      .ret terminal parent step.before.current (esp, ebp)
  | _, _, _ => .silent

section Steps

variable {img : Image} {layout : Layout} {k next : Kernel}
  {event : KernelEvent} {answer : Outcome}

theorem schedulerLoop_found {pcb : Nat → Pcb} {last fuel i slot : Nat}
    {examined : List Nat}
    (hloop : schedulerLoop pcb last fuel i = some (examined, some slot)) :
    (pcb slot).inUse = true ∧ (pcb slot).status = .running := by
  induction fuel generalizing i examined with
  | zero => simp [schedulerLoop] at hloop
  | succ fuel ih =>
      simp only [schedulerLoop] at hloop
      split at hloop
      · simp at hloop
      · split at hloop
        · rename_i hrunnable
          obtain ⟨-, heq⟩ := Prod.mk.inj (Option.some.inj hloop)
          rw [← Option.some.inj heq]
          exact hrunnable
        · obtain ⟨⟨rest, found⟩, hrest, heq⟩ :=
            Option.map_eq_some_iff.mp hloop
          obtain ⟨-, rfl⟩ := Prod.mk.inj heq
          exact ih hrest

theorem switchActiveTerminal_core (newTerminal : Nat) :
    { k with tty := switchActiveTerminal layout k.tty newTerminal }.core =
      { k.core with activeTerminal :=
        if newTerminal < numTerminals then newTerminal
        else k.core.activeTerminal } := by
  refine Core.ext rfl rfl rfl rfl ?_
  change (switchActiveTerminal layout k.tty newTerminal).activeTerminal = _
  simp only [switchActiveTerminal, apply_ite Tty.activeTerminal,
    setHardwareCursor, Kernel.core]

theorem halt_coreStep (status : Int)
    (hhalt : haltProgram layout k status = (next, answer))
    (hevent : event = .exception ∨ ∃ status, event = .halt status) :
    CoreStep layout k.core event (callLabel ⟨k, event, answer, next⟩)
      next.core := by
  have hnext : (haltProgram layout k status).1 = next := by rw [hhalt]
  have hanswer : (haltProgram layout k status).2 = answer := by rw [hhalt]
  cases hparent : (k.pcb k.current).parent with
  | none =>
      obtain ⟨hcore, entrypoint, houtcome⟩ :=
        @haltProgram_root layout k status hparent
      have hlabel : callLabel ⟨k, event, answer, next⟩ = .silent := by
        rw [← hanswer, houtcome]
        rcases hevent with rfl | ⟨s, rfl⟩ <;> rfl
      rw [hlabel, ← hnext, hcore]
      exact CoreStep.restart event hevent hparent
  | some parent =>
      obtain ⟨hcore, houtcome⟩ := @haltProgram_parent layout k _ status hparent
      have hlabel : callLabel ⟨k, event, answer, next⟩ =
          .ret (Fin.ofNat _ (k.pcb k.current).terminalNum) parent k.current
            ((k.pcb parent).esp, (k.pcb parent).ebp) := by
        rw [← hanswer, houtcome]
        rcases hevent with rfl | ⟨s, rfl⟩ <;>
          simp only [callLabel, Kernel.currentPcb, hparent]
      rw [hlabel, ← hnext, hcore]
      exact CoreStep.halt event parent hevent hparent

theorem switch_coreStep {target esp ebp : Nat}
    (hevent : event = .timer target esp ebp ∨ event = .tick esp ebp)
    (hstack : k.OnStack esp)
    (htarget : target < maxProcesses) (hinUse : (k.pcb target).inUse = true)
    (hstatus : (k.pcb target).status = .running) :
    CoreStep layout k.core event .silent
      (contextSwitch layout k k.current target esp ebp).1.core := by
  rw [contextSwitch_core]
  exact CoreStep.switch event target esp ebp hevent hstack.2 htarget hinUse
    hstatus

/-- What a kernel entry can be: a switch to a process that can run, whoever
chose it, or one of the calls. -/
inductive EntryCase (img : Image) (layout : Layout) (k : Kernel) :
    KernelEvent → Kernel → Outcome → Prop where
  | switched {event : KernelEvent} (target esp ebp : Nat)
      (hevent : event = .timer target esp ebp ∨ event = .tick esp ebp)
      (hstack : k.OnStack esp) (htarget : target < maxProcesses)
      (huse : (k.pcb target).inUse = true)
      (hstatus : (k.pcb target).status = .running) :
      EntryCase img layout k event
        (contextSwitch layout k k.current target esp ebp).1
        (contextSwitch layout k k.current target esp ebp).2
  | unswitched (esp ebp : Nat) :
      EntryCase img layout k (.tick esp ebp) k .unswitched
  | executed (command : List UInt8) (esp ebp : Nat) (junk : Junk)
      {next : Kernel} {outcome : Outcome} (hstack : k.OnStack esp)
      (hcall : syscallExecute img layout k command esp ebp junk =
        (next, outcome)) :
      EntryCase img layout k (.execute command esp ebp junk) next outcome
  | halted {event : KernelEvent} (status : Int) {next : Kernel}
      {outcome : Outcome}
      (hevent : event = .exception ∨ ∃ status, event = .halt status)
      (hhalt : haltProgram layout k status = (next, outcome)) :
      EntryCase img layout k event next outcome
  | activated (newTerminal : Nat) :
      EntryCase img layout k (.switchTerminal newTerminal)
        { k with tty := switchActiveTerminal layout k.tty newTerminal }
        .terminalSwitched

theorem kernelEntry_cases
    (hentry : kernelEntry img layout k event = some (next, answer)) :
    EntryCase img layout k event next answer := by
  cases event with
  | timer target esp ebp =>
      obtain ⟨⟨hstack, htarget, huse, hstatus⟩, heq⟩ :=
        Option.ite_none_right_eq_some.mp hentry
      obtain ⟨rfl, rfl⟩ := Prod.ext_iff.mp (Option.some.inj heq)
      exact .switched target esp ebp (.inl rfl) hstack htarget huse hstatus
  | tick esp ebp =>
      obtain ⟨⟨hstack, hscans⟩, heq⟩ :=
        Option.ite_none_right_eq_some.mp hentry
      obtain ⟨⟨examined, found⟩, hscan, heq⟩ := Option.map_eq_some_iff.mp heq
      cases found with
      | none =>
          obtain ⟨rfl, rfl⟩ := Prod.ext_iff.mp heq
          exact .unswitched esp ebp
      | some target =>
          have htarget := hscans _ hscan target rfl
          obtain ⟨huse, hstatus⟩ := schedulerLoop_found hscan
          obtain ⟨rfl, rfl⟩ := Prod.ext_iff.mp heq
          exact .switched target esp ebp (.inr rfl) hstack htarget huse
            hstatus
  | execute command esp ebp junk =>
      obtain ⟨⟨hstack, -⟩, heq⟩ := Option.ite_none_right_eq_some.mp hentry
      exact .executed command esp ebp junk hstack (Option.some.inj heq)
  | halt status =>
      exact .halted _ (.inr ⟨status, rfl⟩) (Option.some.inj hentry)
  | exception =>
      obtain ⟨-, heq⟩ := Option.ite_none_right_eq_some.mp hentry
      exact .halted _ (.inl rfl) (Option.some.inj heq)
  | switchTerminal newTerminal =>
      obtain ⟨rfl, rfl⟩ := Prod.ext_iff.mp (Option.some.inj hentry)
      exact .activated newTerminal

theorem kernelStep_coreStep
    (hslots : ∀ slot < maxProcesses, (k.pcb slot).slotNum = slot)
    (hstep : kernelStep img layout k event = some (next, answer)) :
    CoreStep layout k.core event (callLabel ⟨k, event, answer, next⟩)
      next.core := by
  obtain ⟨hfits, hentry⟩ := Option.ite_none_right_eq_some.mp hstep
  cases kernelEntry_cases hentry with
  | switched target esp ebp hevent hstack htarget huse hstatus =>
      have hlabel : callLabel ⟨k, event,
          (contextSwitch layout k k.current target esp ebp).2,
          (contextSwitch layout k k.current target esp ebp).1⟩ =
            .silent := by
        rcases hevent with rfl | rfl <;> rfl
      rw [hlabel]
      exact switch_coreStep hevent hstack htarget huse hstatus
  | unswitched esp ebp => exact CoreStep.idle esp ebp
  | executed command esp ebp junk hstack hcall =>
      rcases syscallExecute_cases hfits hslots hcall with
        ⟨rfl, hcore⟩ | ⟨child, entrypoint, hlt, hfree, rfl, hcore⟩
      · rw [hcore]
        exact CoreStep.rejected command esp ebp junk
      · rw [hcore]
        exact CoreStep.execute command child esp ebp junk hstack.2 hlt hfree
  | halted status hevent hhalt => exact halt_coreStep status hhalt hevent
  | activated newTerminal =>
      rw [switchActiveTerminal_core]
      exact CoreStep.activate newTerminal

end Steps

end PsychOS
