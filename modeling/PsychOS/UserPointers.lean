/-
User pointers.  `read`, `write`, `getargs` and `vidmap` check the address the
program passes against the process page before they use it.  What they then
touch depends on the handler behind the descriptor.
-/
import PsychOS.Boot
import PsychOS.DescriptorCalls
import PsychOS.FileContents
import PsychOS.Lib.Strings
import PsychOS.TerminalInput

namespace PsychOS

/-- `PROCESS_NONE`, `PROCESS_RUNNING` and `PROCESS_BLOCKED`. -/
def Status.code : Status → Nat
  | .none => 0
  | .running => 1
  | .blocked => 2

/-- Byte `i` of a 32-bit number, the lowest being byte 0. -/
def byteOf (value i : Nat) : UInt8 := UInt8.ofNat (value / 256 ^ i)

/-- The bytes of a PCB from `program_name` on.  Behind the fields, and in the
gap between them, is whatever memory holds. -/
def Pcb.bytes (pcb : Pcb) : Memory UInt8 := fun offset =>
  if offset < entrypointOffset then pcb.text offset
  else
    match offset / 4, offset % 4 with
    | 64, i => byteOf pcb.entrypoint i
    | 65, i => byteOf pcb.slotNum i
    | 66, i => byteOf pcb.pid i
    | 67, 0 => if pcb.inUse then 1 else 0
    | 67, 1 => byteOf pcb.terminalNum 0
    | 67, 2 => if pcb.rtcEnabled then 1 else 0
    | 68, i => byteOf pcb.rtcInterval i
    | 69, i => byteOf pcb.remainingRtcTicks i
    | 70, i => byteOf pcb.status.code i
    | _, _ => pcb.text offset

/-- `strlen(pcb->args)`, over the whole address space. -/
def Pcb.argsLength (pcb : Pcb) : Option Nat :=
  strlenFrom pcb.bytes maxProgramNameLength (2 ^ 32)

/-- `syscall_getargs`: the result and the bytes stored.  The arguments are not
copied if the buffer is too small, as an unsigned number, for them and their
terminator. -/
def syscallGetargs (pcb : Pcb) (buf : Nat) (nbytes : Int) :
    Option (Int × List UInt8) :=
  if !inPageBounds buf nbytes then some (-1, [])
  else
    pcb.argsLength.map fun length =>
      if toUint32 nbytes < (length + 1) % 2 ^ 32 then (-1, [])
      else (0, pcb.bytes.load maxProgramNameLength length ++ [0])

/-- `syscall_vidmap`: the result and the bytes stored. -/
def syscallVidmap (pcb : Pcb) (screenStart : Nat) : Int × List UInt8 :=
  if !inPageBounds screenStart 4 then (-1, [])
  else (0, (List.range 4).map (byteOf (getProcessVmemPage pcb.slotNum)))

/-- The system calls that take a user pointer they check. -/
inductive UserCall where
  | read (fd nbytes : Int)
  | write (fd nbytes : Int)
  | getargs (nbytes : Int)
  | vidmap
  deriving DecidableEq, Repr

namespace UserCall

/-- The length the check of the call is made with. -/
def checkedLength : UserCall → Int
  | .read _ nbytes => nbytes
  | .write _ nbytes => nbytes
  | .getargs nbytes => nbytes
  | .vidmap => 4

/-- The call gets past its check. -/
def Passes (call : UserCall) (buf : Nat) : Prop :=
  inPageBounds buf call.checkedLength = true

instance (call : UserCall) (buf : Nat) : Decidable (call.Passes buf) :=
  inferInstanceAs (Decidable (_ = true))

/-- The bytes the call stores to the buffer or fetches from it, from its start
on; `none` for a call that still waits. -/
def transferred (img : Image) (pcb : Pcb) (tty : Tty) (user : Memory UInt8)
    (buf : Nat) : UserCall → Option (List UInt8)
  | .read fd nbytes =>
      (syscallRead img pcb tty fd buf nbytes).map ReadOutcome.stored
  | .write fd nbytes =>
      some (syscallWrite pcb tty user fd buf nbytes).fetched
  | .getargs nbytes => (syscallGetargs pcb buf nbytes).map Prod.snd
  | .vidmap => some (syscallVidmap pcb buf).2

end UserCall

/-- The addresses of the first `count` bytes of a buffer. -/
def touched (buf count : Nat) : List Nat :=
  (List.range count).map fun i => (buf + i) % 2 ^ 32

/-- The page of the running process. -/
def InProcessPage (addr : Nat) : Prop :=
  processVirtPageStart ≤ addr ∧ addr < processVirtPageStart + processPageSize

instance (addr : Nat) : Decidable (InProcessPage addr) :=
  inferInstanceAs (Decidable (_ ∧ _))

/-- How many bytes a `read` on the descriptor moves: the first line typed, a
name of the directory or the rest of the file, as far as the buffer is said to
reach.  A negative length is a large one. -/
def readTransfer (img : Image) (pcb : Pcb) (tty : Tty) (nbytes : Int)
    (f : FileDesc) : FileOps → Nat
  | .stdin => min (lineLength (tty.pending pcb.terminalNum)) (toUint32 nbytes)
  | .dir =>
      if f.filePosition < img.numDirectoryEntries then
        if nbytes < maxFileNameLength then toUint32 nbytes
        else maxFileNameLength
      else 0
  | .file =>
      if f.inode < img.numInodes ∧
          f.filePosition < img.fileLength f.inode then
        img.readable f.inode f.filePosition
          (img.wanted f.inode f.filePosition (toUint32 nbytes))
      else 0
  | .rtc => 0
  | .stdout => 0

/-- How many bytes a `write` on the descriptor moves.  A rate for the clock is
four bytes whatever the length. -/
def writeTransfer (nbytes : Int) : FileOps → Nat
  | .stdout => nbytes.toNat
  | .rtc => 4
  | _ => 0

/-- How many bytes a call that passes its check moves. -/
def UserCall.transferLength (img : Image) (pcb : Pcb) (tty : Tty) :
    UserCall → Nat
  | .read fd nbytes =>
      (pcb.openFd fd).elim 0 fun (f, fops) =>
        readTransfer img pcb tty nbytes f fops
  | .write fd nbytes =>
      (pcb.openFd fd).elim 0 fun (_, fops) => writeTransfer nbytes fops
  | .getargs nbytes =>
      pcb.argsLength.elim 0 fun length =>
        if (length + 1) % 2 ^ 32 ≤ toUint32 nbytes then length + 1 else 0
  | .vidmap => 4

section Transfers

variable {img : Image} {layout : Layout} {pcb : Pcb} {tty : Tty}
  {user : Memory UInt8} {f : FileDesc} {buf : Nat} {nbytes : Int}

theorem toUint32_lt (value : Int) : toUint32 value < 2 ^ 32 := by
  rw [toUint32]
  omega

theorem fileRead_length
    (hfiles : ∀ inode, img.fileLength inode < 2 ^ 32) :
    (fileRead img f nbytes).2.2.length =
      readTransfer img pcb tty nbytes f .file := by
  have hstored : (fileRead img f nbytes).2.2 =
      (img.readData f.inode f.filePosition (toUint32 nbytes)).2 := by
    unfold fileRead
    dsimp only
    split <;> rfl
  rw [hstored, readTransfer]
  by_cases hinode : f.inode < img.numInodes
  · by_cases hposition : f.filePosition < img.fileLength f.inode
    · rw [if_pos ⟨hinode, hposition⟩,
        readData_spec hinode (hfiles _) hposition (toUint32_lt nbytes),
        Memory.load_length]
    · rw [if_neg fun h => hposition h.2, Image.readData,
        if_neg (Nat.not_le_of_lt hinode), if_pos (Nat.le_of_not_lt hposition)]
      rfl
  · rw [if_neg fun h => hinode h.1, Image.readData,
      if_pos (Nat.le_of_not_lt hinode)]
    rfl

theorem dirRead_length :
    (dirRead img f nbytes).2.2.length =
      readTransfer img pcb tty nbytes f .dir := by
  rw [dirRead, Image.readDentryByIndex, readTransfer]
  by_cases hposition : f.filePosition < img.numDirectoryEntries
  · rw [if_neg (Nat.not_le_of_lt hposition), if_pos hposition]
    dsimp only
    rw [Memory.load_length]
    by_cases hshort : nbytes < maxFileNameLength
    · rw [if_pos hshort, if_pos hshort]
    · rw [if_neg hshort, if_neg hshort]
      rfl
  · rw [if_pos (Nat.le_of_not_lt hposition), if_neg hposition]
    rfl

theorem stdinRead_length (hready : tty.InputReady layout pcb.terminalNum)
    {bytes : List UInt8} {next : Tty}
    (hread : terminalRead tty pcb.terminalNum nbytes = some (bytes, next)) :
    bytes.length = readTransfer img pcb tty nbytes f .stdin := by
  have hspec := terminalRead_spec hready hread
  have hline := lineLength_le_length (tty.pending pcb.terminalNum)
  rw [hspec.bytes_eq, List.length_take, readTransfer]
  omega

theorem readHandler_length
    (hfiles : ∀ inode, img.fileLength inode < 2 ^ 32)
    (hready : tty.InputReady layout pcb.terminalNum) {fd : Nat}
    {fops : FileOps} {outcome : ReadOutcome}
    (hread : readHandler img pcb tty fd f nbytes fops = some outcome) :
    outcome.stored.length = readTransfer img pcb tty nbytes f fops := by
  cases fops with
  | stdin =>
      obtain ⟨⟨bytes, next⟩, hterminal, rfl⟩ :=
        Option.map_eq_some_iff.mp hread
      exact stdinRead_length hready hterminal
  | stdout =>
      rw [← Option.some.inj hread]
      rfl
  | rtc =>
      rw [readHandler] at hread
      split at hread
      · rw [← Option.some.inj hread]
        rfl
      · obtain ⟨-, heq⟩ := Option.ite_none_left_eq_some.mp hread
        rw [← Option.some.inj heq]
        rfl
  | dir =>
      rw [← Option.some.inj hread]
      exact dirRead_length
  | file =>
      rw [← Option.some.inj hread]
      exact fileRead_length hfiles

theorem writeHandler_length (fops : FileOps) :
    (writeHandler pcb tty user buf nbytes fops).fetched.length =
      writeTransfer nbytes fops := by
  cases fops with
  | stdout => simp [writeHandler, writeTransfer, loadUser]
  | rtc =>
      rw [writeHandler]
      split
      · rfl
      · split <;> rfl
  | stdin => rfl
  | dir => rfl
  | file => rfl

theorem syscallRead_length
    (hfiles : ∀ inode, img.fileLength inode < 2 ^ 32)
    (hready : tty.InputReady layout pcb.terminalNum) {fd : Int}
    {outcome : ReadOutcome} (hpasses : inPageBounds buf nbytes = true)
    (hread : syscallRead img pcb tty fd buf nbytes = some outcome) :
    outcome.stored.length =
      (UserCall.read fd nbytes).transferLength img pcb tty := by
  rw [UserCall.transferLength]
  rcases syscallRead_cases hread with
    ⟨rfl, hfails | hclosed | ⟨f, hopen⟩⟩ | ⟨f, fops, -, hopen, hhandler⟩
  · rw [hpasses] at hfails
    cases hfails
  · rw [hclosed]
    rfl
  · rw [hopen]
    rfl
  · rw [hopen]
    exact readHandler_length hfiles hready hhandler

theorem syscallWrite_length {fd : Int}
    (hpasses : inPageBounds buf nbytes = true) :
    (syscallWrite pcb tty user fd buf nbytes).fetched.length =
      (UserCall.write fd nbytes).transferLength img pcb tty := by
  rw [UserCall.transferLength]
  rcases @syscallWrite_cases pcb tty user buf nbytes fd with
    ⟨heq, hfails | hclosed | ⟨f, hopen⟩⟩ | ⟨f, fops, -, hopen, -, heq⟩
  · rw [hpasses] at hfails
    cases hfails
  · rw [heq, hclosed]
    rfl
  · rw [heq, hopen]
    rfl
  · rw [heq, hopen]
    exact writeHandler_length fops

theorem syscallGetargs_length {result : Int × List UInt8}
    (hpasses : inPageBounds buf nbytes = true)
    (hgetargs : syscallGetargs pcb buf nbytes = some result) :
    result.2.length =
      (UserCall.getargs nbytes).transferLength img pcb tty := by
  rw [syscallGetargs, hpasses, Bool.not_true,
    if_neg Bool.false_ne_true] at hgetargs
  obtain ⟨length, hlength, rfl⟩ := Option.map_eq_some_iff.mp hgetargs
  rw [UserCall.transferLength, hlength, Option.elim_some]
  by_cases hsmall : toUint32 nbytes < (length + 1) % 2 ^ 32
  · rw [if_pos hsmall, if_neg (Nat.not_le_of_lt hsmall)]
    rfl
  · rw [if_neg hsmall, if_pos (Nat.le_of_not_lt hsmall)]
    simp

/-- A call that passes its check moves the bytes its arguments and the state
before it say. -/
theorem transferred_length {call : UserCall} {bytes : List UInt8}
    (hfiles : ∀ inode, img.fileLength inode < 2 ^ 32)
    (hready : tty.InputReady layout pcb.terminalNum)
    (hpasses : call.Passes buf)
    (hcall : call.transferred img pcb tty user buf = some bytes) :
    bytes.length = call.transferLength img pcb tty := by
  cases call with
  | read fd nbytes =>
      obtain ⟨outcome, hread, rfl⟩ := Option.map_eq_some_iff.mp hcall
      exact syscallRead_length hfiles hready hpasses hread
  | write fd nbytes =>
      rw [← Option.some.inj hcall]
      exact syscallWrite_length hpasses
  | getargs nbytes =>
      obtain ⟨result, hgetargs, rfl⟩ := Option.map_eq_some_iff.mp hcall
      exact syscallGetargs_length hpasses hgetargs
  | vidmap =>
      have hcheck : inPageBounds buf 4 = true := hpasses
      rw [← Option.some.inj hcall, syscallVidmap, hcheck]
      rfl

end Transfers

/-- Bytes from an address at or above the start of the page on lie in the page
exactly if there are none or the last one does. -/
theorem touched_inProcessPage_iff {buf count : Nat}
    (hstart : processVirtPageStart ≤ buf) (hbuf : buf < 2 ^ 32) :
    (∀ addr ∈ touched buf count, InProcessPage addr) ↔
      count = 0 ∨ buf + count ≤ processVirtPageStart + processPageSize := by
  simp only [touched, List.mem_map, List.mem_range, InProcessPage,
    processVirtPageStart, processPageSize] at *
  constructor
  · intro hall
    by_contra hout
    -- the first byte at or past the end of the page
    have hfirst := hall _ ⟨max buf 138412032 - buf, by omega, rfl⟩
    omega
  · rintro hcount addr ⟨i, hi, rfl⟩
    omega

/-- The bytes a call touches all lie in the process page, if it passes its
check, exactly if the transfer is empty or ends by the end of the page.  The
check does not see to that. -/
theorem user_pointer_check_iff (img : Image) (layout : Layout) {pcb : Pcb}
    {tty : Tty} {user : Memory UInt8} {call : UserCall} {buf : Nat}
    {bytes : List UInt8} (hbuf : buf < 2 ^ 32)
    (hfiles : ∀ inode, img.fileLength inode < 2 ^ 32)
    (hready : tty.InputReady layout pcb.terminalNum)
    (hcall : call.transferred img pcb tty user buf = some bytes) :
    (call.Passes buf →
        ∀ addr ∈ touched buf bytes.length, InProcessPage addr) ↔
      (call.Passes buf → call.transferLength img pcb tty = 0 ∨
        buf + call.transferLength img pcb tty ≤
          processVirtPageStart + processPageSize) := by
  refine forall_congr' fun hpasses => ?_
  have hstart : processVirtPageStart ≤ buf := by
    have hcheck := hpasses
    simp only [UserCall.Passes, inPageBounds, decide_eq_true_eq] at hcheck
    exact hcheck.1
  rw [transferred_length hfiles hready hpasses hcall]
  exact touched_inProcessPage_iff hstart hbuf

/-- A process with its standard descriptors and no arguments. -/
def samplePcb : Pcb := openStdinAndStdout Pcb.zeroed

/-- A terminal on which a letter and Enter were typed. -/
def sampleLine : Tty :=
  let typed := (keyboardPutc (resetTerminal sampleLayout Tty.zeroed 0) 0 97).1
  (keyboardPutc typed 0 charNewline).1

theorem printed_inside_page :
    (UserCall.write 1 3).Passes 0x8048000 ∧
      (∀ addr ∈ touched 0x8048000 3, InProcessPage addr) := by
  have hpasses : (UserCall.write 1 3).Passes 0x8048000 := by decide
  have hcall : (UserCall.write 1 3).transferred shellImage samplePcb
      (resetTerminal sampleLayout Tty.zeroed 0) (fun _ => 97) 0x8048000 =
      some [97, 97, 97] := rfl
  have hfiles (inode : Nat) : shellImage.fileLength inode < 2 ^ 32 :=
    show 28 < 2 ^ 32 by decide
  have hiff := user_pointer_check_iff shellImage sampleLayout (by decide)
    hfiles (resetTerminal_ready sampleLayout Tty.zeroed 0) hcall
  exact ⟨hpasses, hiff.mpr (fun _ => by decide) hpasses⟩

/-- In this state the call passes its check and touches a byte outside the
process page. -/
def SampleEscapes (call : UserCall) (buf : Nat) : Prop :=
  call.Passes buf ∧
    ∃ bytes ∈ call.transferred shellImage samplePcb sampleLine (fun _ => 97)
        buf,
      ∃ addr ∈ touched buf bytes.length, ¬ InProcessPage addr

instance (call : UserCall) (buf : Nat) : Decidable (SampleEscapes call buf) :=
  inferInstanceAs (Decidable (_ ∧ ∃ bytes ∈ call.transferred ..,
    ∃ addr ∈ touched buf bytes.length, ¬ InProcessPage addr))

/-- Each of the four calls gets a pointer outside the page past its check: at
the end of the page, because the length is added to the bound, and far behind
it with a negative length. -/
theorem outside_pointers_pass :
    SampleEscapes .vidmap 0x8400000 ∧ SampleEscapes (.write 1 10) 0x8400000 ∧
      SampleEscapes (.getargs 10) 0x8400000 ∧
      SampleEscapes (.read 0 (-2147483648)) 0x10000000 := by
  decide +kernel

end PsychOS
