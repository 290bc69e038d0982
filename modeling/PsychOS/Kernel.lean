/-
Process management (`arch/x86/task.c`, `kernel/syscall.c`, `drivers/pit.c`):
starting the three root programs, `execute`, `halt`, the context switch and the
scheduler.  A process is known by its slot; which process runs is known by the
kernel stack in use, since every PCB lies at the end of its process's stack.
-/
import PsychOS.Lib.Execution
import PsychOS.Descriptors

namespace PsychOS

abbrev kernelStackSize : Nat := 0x2000
abbrev processLinkOffset : Nat := 0x48000
abbrev elfMagicHeaderLen : Nat := 4
abbrev elfEntrypointOffset : Nat := 24

def elfMagicHeader : List UInt8 := [0x7f, 0x45, 0x4c, 0x46]

def getPcbFromSlot (slot : Nat) : Nat :=
  kernelPageEnd - kernelStackSize * (slot + 1)

def getKernelStackBaseFromSlot (slot : Nat) : Nat :=
  kernelPageEnd - kernelStackSize * slot

/-- One less and then cut to 8KB, so that an empty stack counts too. -/
def getPcbFromEsp (esp : Nat) : Nat :=
  (esp - 1) / kernelStackSize * kernelStackSize

/-- The slot whose PCB is at the address. -/
def slotOfPcb (addr : Nat) : Nat := (kernelPageEnd - addr) / kernelStackSize - 1

/-- The slot whose kernel stack a stack pointer lies on. -/
def slotOfEsp (esp : Nat) : Nat := slotOfPcb (getPcbFromEsp esp)

/-- The state of the kernel.  `pcb` also covers the memory below the last
stack, where a slot number beyond the table leads.  `esp` is where the kernel
stack in use was last loaded from, `esp0` is the stack the processor switches
to when it next leaves user mode, and `pages` are the bytes of physical memory
that hold the program pages. -/
structure Kernel where
  pcb : Nat → Pcb
  nextPid : Nat
  esp : Nat
  esp0 : Nat
  cr3 : Nat
  paging : Memory Nat
  pages : Memory UInt8
  tty : Tty

namespace Kernel

/-- `get_current_pcb`. -/
def current (k : Kernel) : Nat := slotOfEsp k.esp

def currentPcb (k : Kernel) : Pcb := k.pcb k.current

def modify (k : Kernel) (slot : Nat) (f : Pcb → Pcb) : Kernel :=
  { k with pcb := Function.update k.pcb slot (f (k.pcb slot)) }

/-- `get_next_pid`: the new identifier and the counter behind it. -/
def getNextPid (k : Kernel) : Nat × Kernel :=
  (k.nextPid, { k with nextPid := (k.nextPid + 1) % 2 ^ 32 })

/-- `set_kernel_stack`. -/
def setKernelStack (k : Kernel) (stack : Nat) : Kernel :=
  { k with esp0 := stack }

/-- `enable_paging`. -/
def enablePaging (k : Kernel) (tablePtr : Nat) : Kernel :=
  { k with cr3 := tablePtr }

/-- `switch_to_ring_3`: the kernel stack is left, to be entered again from the
top. -/
def switchToRing3 (k : Kernel) : Kernel := { k with esp := k.esp0 }

end Kernel

/-- `open_stdin_and_stdout`. -/
def openStdinAndStdout (pcb : Pcb) : Pcb :=
  let pcb := pcb.setFd 0
    { pcb.fa 0 with flags := 1, fops := some .stdin, filePosition := 0 }
  pcb.setFd 1
    { pcb.fa 1 with flags := 1, fops := some .stdout, filePosition := 0 }

/-- The length of a string up to a terminator. -/
def strlen (bytes : List UInt8) : Nat := (bytes.takeWhile (· ≠ 0)).length

/-- Where `entrypoint` and `status` are in `pcb_t`, counted from the start of
`program_name`. -/
abbrev entrypointOffset : Nat := maxProgramNameLength + maxArgsLength
abbrev statusOffset : Nat := 280

/-- A 32-bit number with one of its bytes replaced, the lowest being byte 0. -/
def setByte (value i : Nat) (byte : UInt8) : Nat :=
  value - value / 256 ^ i % 256 * 256 ^ i + byte.toNat * 256 ^ i

namespace Pcb

/-- A byte written at an offset from `program_name`.  Behind `args` lie the
other fields, by words; what lies from `status` on is not covered. -/
def writeByte (pcb : Pcb) (offset : Nat) (byte : UInt8) : Pcb :=
  if offset < entrypointOffset then
    { pcb with text := pcb.text.store offset byte }
  else
    match offset / 4, offset % 4 with
    | 64, i => { pcb with entrypoint := setByte pcb.entrypoint i byte }
    | 65, i => { pcb with slotNum := setByte pcb.slotNum i byte }
    | 66, i => { pcb with pid := setByte pcb.pid i byte }
    | 67, 0 => { pcb with inUse := byte != 0 }
    | 67, 1 => { pcb with terminalNum := byte.toNat }
    | 67, 2 => { pcb with rtcEnabled := byte != 0 }
    | 68, i => { pcb with rtcInterval := setByte pcb.rtcInterval i byte }
    | 69, i =>
        { pcb with remainingRtcTicks := setByte pcb.remainingRtcTicks i byte }
    | _, _ => pcb

def writeBytes (pcb : Pcb) (offset : Nat) : List UInt8 → Pcb
  | [] => pcb
  | byte :: rest => (pcb.writeByte offset byte).writeBytes (offset + 1) rest

end Pcb

/-- The lengths `parse_command` finds. -/
def lenName (command : List UInt8) : Nat :=
  (command.takeWhile fun ch => ch ≠ 32 ∧ ch ≠ 0).length

def lenArgs (command : List UInt8) : Nat :=
  if cString command (lenName command) = 32 then
    strlen (command.drop (lenName command + 1))
  else 0

/-- `parse_command`, into `program_name` and `args`.  It does not check that
there is room. -/
def parseCommand (command : List UInt8) (pcb : Pcb) : Pcb :=
  let pcb := pcb.writeBytes 0 (strncpy (cString command) (lenName command))
  let pcb := pcb.writeByte (lenName command) 0
  let pcb :=
    if cString command (lenName command) = 32 then
      pcb.writeBytes maxProgramNameLength
        (strncpy (cString (command.drop (lenName command + 1)))
          (lenArgs command))
    else pcb
  pcb.writeByte (maxProgramNameLength + lenArgs command) 0

/-- The offset behind the last byte `parse_command` writes. -/
def commandEnd (command : List UInt8) : Nat :=
  max (lenName command + 1) (maxProgramNameLength + lenArgs command + 1)

/-- `get_executable_entrypoint`: 0 unless the ELF header is there. -/
def getExecutableEntrypoint (pages : Memory UInt8) (executable : Nat) : Nat :=
  if strncmp (fun i => pages (executable + i)) (cString elfMagicHeader)
      elfMagicHeaderLen ≠ 0 then 0
  else littleEndian (pages.load (executable + elfEntrypointOffset) 4)

/-- `load_program_into_slot`: the new memory and the start address, 0 for
`NULL`. -/
def loadProgramIntoSlot (img : Image) (pages : Memory UInt8)
    (filename : Memory UInt8) (slot : Nat) : Memory UInt8 × Nat :=
  let processPage := getProcessPageFromSlot slot
  let (retval, stored) := img.readFileByName filename
    (processPageSize - processLinkOffset)
  let pages := pages.storeList (processPage + processLinkOffset) stored
  if retval < 0 then (pages, 0)
  else if retval ≤ elfMagicHeaderLen then (pages, 0)
  else (pages, getExecutableEntrypoint pages (processPage + processLinkOffset))

/-- What a kernel entry leads to. -/
inductive Outcome where
  | entered (slot entrypoint : Nat)
  | resumed (esp ebp : Nat)
  | unswitched
  | returned (value : Int)
  | executeReturned (esp ebp : Nat) (value : Int)
  | terminalSwitched
  deriving DecidableEq, Repr

section Boot

variable (img : Image) (layout : Layout)

/-- One turn of the first loop of `kernel_run_first_program`. -/
def clearPcb (k : Kernel) (i : Nat) : Kernel :=
  k.modify i fun pcb =>
    { pcb with inUse := false, slotNum := i, status := .none }

/-- One turn of the second loop; `none` when the program cannot be loaded. -/
def startRoot (command : List UInt8) (junk : Nat → Junk) (k : Kernel)
    (i : Nat) : Option Kernel :=
  let k := k.modify i (parseCommand command)
  let slotNum := (k.pcb i).slotNum
  let (pages, entrypoint) :=
    loadProgramIntoSlot img k.pages (k.pcb i).text slotNum
  if entrypoint = 0 then none
  else
    let vmemPtr := getTerminalOutputBuffer layout k.tty i
    let (pid, k) := k.getNextPid
    let k := { k with
      pages := pages
      paging := setupProcessPaging layout (junk i) k.paging
        (getProcessPageFromSlot slotNum) slotNum vmemPtr }
    let k := k.modify i fun pcb => { pcb with
      entrypoint := entrypoint
      processPdPtr := getProcessPd slotNum
      parent := none
      child := none
      inUse := true
      pid := pid
      status := .running
      terminalNum := i }
    some (k.modify i openStdinAndStdout)

/-- `kernel_run_first_program`; `none` when it returns because a program could
not be loaded. -/
def kernelRunFirstProgram (command : List UInt8) (junk : Nat → Junk)
    (k : Kernel) : Option Kernel :=
  let k := (List.range maxProcesses).foldl clearPcb k
  let k := { k with tty := multipleTerminalInit layout k.tty }
  ((List.range numTerminals).foldlM (startRoot img layout command junk) k).map
    fun k =>
      let child := k.pcb 0
      ((k.enablePaging child.processPdPtr).setKernelStack
        (getKernelStackBaseFromSlot child.slotNum)).switchToRing3

end Boot

/-- The rest of `syscall_execute`, once the program is loaded: set `child` up
and enter it.  `esp` and `ebp` are the registers it saves. -/
def startProcess (layout : Layout) (k : Kernel)
    (parent child entrypoint esp ebp : Nat) (junk : Junk) : Kernel :=
  let slotNum := (k.pcb child).slotNum
  let terminal := (k.pcb parent).terminalNum
  let vmemPtr := getTerminalOutputBuffer layout k.tty terminal
  let k := { k with
    paging := setProcessVmemPage
      (setupProcessPaging layout junk k.paging
        (getProcessPageFromSlot slotNum) slotNum vmemPtr) slotNum vmemPtr }
  let k := k.enablePaging (getProcessPd slotNum)
  let (pid, k) := k.getNextPid
  let k := k.modify child fun pcb => { pcb with
    entrypoint := entrypoint
    processPdPtr := getProcessPd slotNum
    parent := some parent
    child := none
    inUse := true
    pid := pid
    terminalNum := terminal
    status := .running }
  let k := k.modify parent fun pcb =>
    { pcb with child := some child, status := .blocked }
  let k := k.modify child openStdinAndStdout
  let k := k.setKernelStack (getKernelStackBaseFromSlot slotNum)
  let k := k.modify parent fun pcb => { pcb with esp := esp, ebp := ebp }
  k.switchToRing3

/-- The slot `syscall_execute` takes. -/
def Kernel.freeSlot (k : Kernel) : Option Nat :=
  (List.range maxProcesses).find? fun i => !(k.pcb i).inUse

/-- The PCB in a slot once its number and the command are in it. -/
def Kernel.namedPcb (k : Kernel) (command : List UInt8) (child : Nat) : Pcb :=
  parseCommand command { k.pcb child with slotNum := child }

/-- `syscall_execute` by the current process. -/
def syscallExecute (img : Image) (layout : Layout) (k : Kernel)
    (command : List UInt8) (esp ebp : Nat) (junk : Junk) : Kernel × Outcome :=
  let parent := k.current
  match k.freeSlot with
  | none => (k, .returned (-1))
  | some child =>
      let named := k.namedPcb command child
      let k := k.modify child fun _ => named
      let (pages, entrypoint) :=
        loadProgramIntoSlot img k.pages named.text named.slotNum
      let k := { k with pages := pages }
      if entrypoint = 0 then (k, .returned (-1))
      else
        (startProcess layout k parent child entrypoint esp ebp junk,
          .entered child entrypoint)

/-- What `halt_program` does first: mark the process as unused and close its
descriptors. -/
def release (k : Kernel) (child : Nat) : Kernel :=
  let k := k.modify child fun pcb => { pcb with inUse := false }
  k.modify child fun pcb =>
    (List.range maxFileDescriptors).foldl
      (fun pcb (fd : Nat) => (syscallClose pcb fd).1) pcb

/-- The branch of `halt_program` for a process without a parent. -/
def restartProgram (layout : Layout) (k : Kernel) (child : Nat) :
    Kernel × Outcome :=
  let k := { k with
    tty := resetTerminal layout k.tty (k.pcb child).terminalNum }
  let (pid, k) := k.getNextPid
  let k := k.modify child fun pcb => { pcb with
    parent := none
    child := none
    inUse := true
    pid := pid
    status := .running }
  let k := k.modify child openStdinAndStdout
  let k := k.setKernelStack
    (getKernelStackBaseFromSlot (k.pcb child).slotNum)
  (k.switchToRing3, .entered child (k.pcb child).entrypoint)

/-- The end of `halt_program`: the parent goes on as if its `execute` had
returned `status`. -/
def returnToParent (k : Kernel) (child parent : Nat) (status : Int) :
    Kernel × Outcome :=
  let k := k.modify child fun pcb => { pcb with status := .none }
  let k := k.modify parent fun pcb => { pcb with status := .running }
  let k := k.enablePaging (k.pcb parent).processPdPtr
  let k := k.setKernelStack
    (getKernelStackBaseFromSlot (k.pcb parent).slotNum)
  ({ k with esp := (k.pcb parent).esp },
    .executeReturned (k.pcb parent).esp (k.pcb parent).ebp status)

/-- `halt_program` by the current process. -/
def haltProgram (layout : Layout) (k : Kernel) (status : Int) :
    Kernel × Outcome :=
  let child := k.current
  let k := release k child
  match (k.pcb child).parent with
  | none => restartProgram layout k child
  | some parent => returnToParent k child parent status

/-- `syscall_halt`. -/
def syscallHalt (layout : Layout) (k : Kernel) (status : Nat) :
    Kernel × Outcome :=
  haltProgram layout k ((status % 256 : Nat) : Int)

/-- The end of `context_switch`: enter `next`, or go on where it was left. -/
def resume (k : Kernel) (next : Nat) : Kernel × Outcome :=
  let k := k.setKernelStack
    (getKernelStackBaseFromSlot (k.pcb next).slotNum)
  if (k.pcb next).esp = 0 then
    (k.switchToRing3, .entered next (k.pcb next).entrypoint)
  else
    ({ k with esp := (k.pcb next).esp },
      .resumed (k.pcb next).esp (k.pcb next).ebp)

/-- `context_switch` from `last` to `next`; `esp` and `ebp` are the registers
it saves. -/
def contextSwitch (layout : Layout) (k : Kernel) (last next : Nat)
    (esp ebp : Nat) : Kernel × Outcome :=
  let k := { k with
    paging := setProcessVmemPage k.paging (k.pcb next).slotNum
      (getTerminalOutputBuffer layout k.tty (k.pcb next).terminalNum) }
  let k := k.enablePaging (k.pcb next).processPdPtr
  let k := k.modify last fun pcb => { pcb with esp := esp, ebp := ebp }
  resume k next

/-- The loop of `scheduler`, from slot `i` on: the slots it examines and the
one it settles on.  `none` if the turns given do not suffice. -/
def schedulerLoop (pcb : Nat → Pcb) (lastSlotChecked : Nat) :
    Nat → Nat → Option (List Nat × Option Nat)
  | 0, _ => none
  | fuel + 1, i =>
      if i = lastSlotChecked then some ([], none)
      else if (pcb i).inUse ∧ (pcb i).status = .running then
        some ([i], some i)
      else
        (schedulerLoop pcb lastSlotChecked fuel ((i + 1) % maxProcesses)).map
          fun (examined, found) => (i :: examined, found)

/-- What `scheduler` examines and finds.  Seven turns are enough: six slots and
the test that ends the loop. -/
def schedulerScan (k : Kernel) : Option (List Nat × Option Nat) :=
  let slotNum := k.currentPcb.slotNum
  let lastSlotChecked :=
    if slotNum = 0 then maxProcesses - 1 else slotNum - 1
  schedulerLoop k.pcb lastSlotChecked (maxProcesses + 1) (slotNum + 1)

/-- `scheduler`. -/
def scheduler (layout : Layout) (k : Kernel) (esp ebp : Nat) :
    Option (Kernel × Outcome) :=
  (schedulerScan k).map fun (_, found) =>
    match found with
    | none => (k, .unswitched)
    | some next => contextSwitch layout k k.current next esp ebp

/-- Kernel entries.  `timer` is a context switch to any process that can run,
`tick` the one the scheduler makes.  The saved registers are whatever they are
on the stack of the current process. -/
inductive KernelEvent where
  | timer (next esp ebp : Nat)
  | tick (esp ebp : Nat)
  | execute (command : List UInt8) (esp ebp : Nat) (junk : Junk)
  | halt (status : Nat)
  | exception
  | switchTerminal (newTerminal : Nat)

/-- The stack pointer is on the kernel stack of the current process. -/
def Kernel.OnStack (k : Kernel) (esp : Nat) : Prop :=
  esp ≠ 0 ∧ slotOfEsp esp = k.current

instance (k : Kernel) (esp : Nat) : Decidable (k.OnStack esp) :=
  inferInstanceAs (Decidable (_ ∧ _))

/-- The scan settles on a slot of the table or on none. -/
def Kernel.ScansTable (k : Kernel) : Prop :=
  ∀ result ∈ schedulerScan k, ∀ next ∈ result.2, next < maxProcesses

instance (k : Kernel) : Decidable k.ScansTable :=
  inferInstanceAs (Decidable (∀ result ∈ schedulerScan k, _))

/-- The command does not run on into `status` and leaves the new process a slot
number of the table. -/
def Kernel.Covers (k : Kernel) (command : List UInt8) : Prop :=
  commandEnd command ≤ statusOffset ∧
    ∀ child ∈ k.freeSlot, (k.namedPcb command child).slotNum < maxProcesses

instance (k : Kernel) (command : List UInt8) : Decidable (k.Covers command) :=
  inferInstanceAs (Decidable (_ ∧ ∀ child ∈ k.freeSlot, _))

/-- The kernel entries the model covers.  An exception in a root program stops
the machine, and a tick that takes the memory below the table for a process
leaves the model, so these are not steps. -/
def kernelEntry (img : Image) (layout : Layout) :
    OutFn Kernel KernelEvent Outcome
  | k, .timer next esp ebp =>
      if k.OnStack esp ∧ next < maxProcesses ∧ (k.pcb next).inUse ∧
          (k.pcb next).status = .running then
        some (contextSwitch layout k k.current next esp ebp)
      else none
  | k, .tick esp ebp =>
      if k.OnStack esp ∧ k.ScansTable then scheduler layout k esp ebp
      else none
  | k, .execute command esp ebp junk =>
      if k.OnStack esp ∧ k.Covers command then
        some (syscallExecute img layout k command esp ebp junk)
      else none
  | k, .halt status => some (syscallHalt layout k status)
  | k, .exception =>
      if k.currentPcb.parent.isSome then some (haltProgram layout k 256)
      else none
  | k, .switchTerminal newTerminal =>
      some ({ k with
        tty := switchActiveTerminal layout k.tty newTerminal },
        .terminalSwitched)

/-- The command, if there is one, has room in `program_name` and `args`. -/
def KernelEvent.Fits : KernelEvent → Prop
  | .execute command _ _ _ => commandEnd command ≤ entrypointOffset
  | _ => True

instance : DecidablePred KernelEvent.Fits
  | .execute command _ _ _ =>
      inferInstanceAs (Decidable (commandEnd command ≤ entrypointOffset))
  | .timer _ _ _ | .tick _ _ | .halt _ | .exception | .switchTerminal _ =>
      isTrue trivial

/-- The kernel entries with commands that have room. -/
def kernelStep (img : Image) (layout : Layout) :
    OutFn Kernel KernelEvent Outcome := fun k event =>
  if event.Fits then kernelEntry img layout k event else none

end PsychOS
