/-
Process control blocks and the file system calls (`kernel/syscall.c`, with the
handlers of `fs/fs.c`, `drivers/rtc.c` and `tty/terminal.c` behind them).
-/
import PsychOS.Filesystem
import PsychOS.Paging

namespace PsychOS

abbrev maxFileDescriptors : Nat := 8
abbrev maxFreq : Nat := 1024
abbrev minFreq : Nat := 2

/-- The tables of file operations; which of the four functions are present
differs. -/
inductive FileOps where
  | stdin
  | stdout
  | rtc
  | dir
  | file
  deriving DecidableEq, Repr

def FileOps.hasRead : FileOps → Bool
  | .stdout => false
  | _ => true

def FileOps.hasWrite : FileOps → Bool
  | .stdin => false
  | _ => true

def FileOps.hasClose : FileOps → Bool
  | .stdin => false
  | .stdout => false
  | _ => true

/-- `file_t`. -/
structure FileDesc where
  fops : Option FileOps
  filePosition : Nat
  flags : Nat
  inode : Nat

/-- `flags & FILE_IN_USE`, the lowest bit. -/
def FileDesc.inUse (f : FileDesc) : Bool := f.flags % 2 == 1

inductive Status where
  | none
  | running
  | blocked
  deriving DecidableEq, Repr

/-- `pcb_t`.  Pointers to PCBs are given by their slots.  `text` is the memory
of `program_name` (from 0 on) and of `args` (from 128 on), which follow each
other. -/
structure Pcb where
  parent : Option Nat
  child : Option Nat
  processPdPtr : Nat
  esp : Nat
  ebp : Nat
  fa : Nat → FileDesc
  text : Memory UInt8
  entrypoint : Nat
  slotNum : Nat
  pid : Nat
  inUse : Bool
  terminalNum : Nat
  rtcEnabled : Bool
  rtcInterval : Nat
  remainingRtcTicks : Nat
  status : Status

abbrev maxProgramNameLength : Nat := 128
abbrev maxArgsLength : Nat := 128

/-- A zero-filled PCB. -/
def Pcb.zeroed : Pcb where
  parent := none
  child := none
  processPdPtr := 0
  esp := 0
  ebp := 0
  fa := fun _ => ⟨none, 0, 0, 0⟩
  text := fun _ => 0
  entrypoint := 0
  slotNum := 0
  pid := 0
  inUse := false
  terminalNum := 0
  rtcEnabled := false
  rtcInterval := 0
  remainingRtcTicks := 0
  status := .none

def Pcb.setFd (pcb : Pcb) (fd : Nat) (f : FileDesc) : Pcb :=
  { pcb with fa := Function.update pcb.fa fd f }

/-- `fops_table`. -/
def fopsTable : Nat → FileOps
  | 0 => .rtc
  | 1 => .dir
  | _ => .file

/-- The `open` handlers: only `rtc_open` does something, set the process up for
2 Hz.  All of them return 0. -/
def openHandler (pcb : Pcb) : FileOps → Pcb
  | .rtc => { pcb with
      rtcEnabled := true
      rtcInterval := maxFreq / 2
      remainingRtcTicks := maxFreq / 2 }
  | _ => pcb

/-- `syscall_open`: the new PCB and the result. -/
def syscallOpen (img : Image) (pcb : Pcb) (filename : Memory UInt8) :
    Pcb × Int :=
  match (List.range maxFileDescriptors).find?
      (fun idx => !(pcb.fa idx).inUse) with
  | none => (pcb, -1)
  | some fd =>
      match img.readDentryByName filename with
      | none => (pcb, -1)
      | some dentry =>
          if dentry.fileType > 2 then (pcb, -1)
          else
            let fops := fopsTable dentry.fileType
            let pcb := openHandler pcb fops
            (pcb.setFd fd ⟨some fops, 0, 1, dentry.inodeNum⟩, fd)

def closeHandler (pcb : Pcb) : FileOps → Pcb
  | .rtc => { pcb with rtcEnabled := false }
  | _ => pcb

/-- The descriptor behind a number, if it is in use. -/
def Pcb.openFd (pcb : Pcb) (fd : Int) : Option (FileDesc × FileOps) :=
  if fd < 0 ∨ fd ≥ maxFileDescriptors then none
  else if (pcb.fa fd.toNat).inUse then
    (pcb.fa fd.toNat).fops.map fun fops => (pcb.fa fd.toNat, fops)
  else none

/-- `syscall_close`. -/
def syscallClose (pcb : Pcb) (fd : Int) : Pcb × Int :=
  match pcb.openFd fd with
  | none => (pcb, -1)
  | some (f, fops) =>
      if fops.hasClose then
        let pcb := pcb.setFd fd.toNat { f with flags := f.flags - f.flags % 2 }
        (closeHandler pcb fops, 0)
      else (pcb, -1)

/-- `file_read`: the new descriptor, the result and the bytes stored. -/
def fileRead (img : Image) (f : FileDesc) (nbytes : Int) :
    FileDesc × Int × List UInt8 :=
  let (res, stored) := img.readData f.inode f.filePosition (toUint32 nbytes)
  if res < 0 then (f, -1, stored)
  else
    ({ f with filePosition := (f.filePosition + res.toNat) % 2 ^ 32 },
      res, stored)

/-- `dir_read`: a negative count goes to `memcpy` as a large one. -/
def dirRead (img : Image) (f : FileDesc) (nbytes : Int) :
    FileDesc × Int × List UInt8 :=
  match img.readDentryByIndex f.filePosition with
  | none => (f, 0, [])
  | some dentry =>
      let numBytesToCopy : Int :=
        if (maxFileNameLength : Int) > nbytes then nbytes
        else maxFileNameLength
      ({ f with filePosition := (f.filePosition + 1) % 2 ^ 32 },
        numBytesToCopy, dentry.fileName.load 0 (toUint32 numBytesToCopy))

/-- The bounds check the system calls make before they use a user pointer, in
32-bit arithmetic. -/
def inPageBounds (targetAddr : Nat) (nbytes : Int) : Bool :=
  processVirtPageStart ≤ targetAddr ∧
    targetAddr < (processVirtPageStart + processPageSize + toUint32 nbytes) %
      2 ^ 32

/-- What a system call that stores to the user's buffer leaves behind.
`stored` are the bytes written from the start of the buffer on. -/
structure ReadOutcome where
  pcb : Pcb
  tty : Tty
  ret : Int
  stored : List UInt8

/-- The `read` handlers.  `none` while the call waits for a line or a tick. -/
def readHandler (img : Image) (pcb : Pcb) (tty : Tty) (fd : Nat)
    (f : FileDesc) (nbytes : Int) : FileOps → Option ReadOutcome
  | .stdin =>
      (terminalRead tty pcb.terminalNum nbytes).map fun (bytes, tty) =>
        ⟨pcb, tty, toInt32 bytes.length, bytes⟩
  | .rtc =>
      if !pcb.rtcEnabled then some ⟨pcb, tty, -1, []⟩
      else if pcb.remainingRtcTicks ≠ 0 then none
      else
        some ⟨{ pcb with remainingRtcTicks := pcb.rtcInterval }, tty, 0, []⟩
  | .dir =>
      let (f, ret, stored) := dirRead img f nbytes
      some ⟨pcb.setFd fd f, tty, ret, stored⟩
  | .file =>
      let (f, ret, stored) := fileRead img f nbytes
      some ⟨pcb.setFd fd f, tty, ret, stored⟩
  | .stdout => some ⟨pcb, tty, -1, []⟩

/-- `syscall_read`. -/
def syscallRead (img : Image) (pcb : Pcb) (tty : Tty) (fd : Int)
    (buf : Nat) (nbytes : Int) : Option ReadOutcome :=
  if !inPageBounds buf nbytes then some ⟨pcb, tty, -1, []⟩
  else
    match pcb.openFd fd with
    | none => some ⟨pcb, tty, -1, []⟩
    | some (f, fops) =>
        if fops.hasRead then readHandler img pcb tty fd.toNat f nbytes fops
        else some ⟨pcb, tty, -1, []⟩

/-- `count` bytes of the user's memory, with 32-bit addresses. -/
def loadUser (user : Memory UInt8) (buf count : Nat) : List UInt8 :=
  (List.range count).map fun i => user ((buf + i) % 2 ^ 32)

/-- A 32-bit number stored with its lowest byte first. -/
def littleEndian (bytes : List UInt8) : Nat :=
  bytes.foldr (fun byte rest => byte.toNat + 256 * rest) 0

/-- What a system call that reads the user's buffer leaves behind.  `fetched`
are the bytes read from the start of the buffer on. -/
structure WriteOutcome where
  pcb : Pcb
  tty : Tty
  ret : Int
  fetched : List UInt8

/-- The `write` handlers.  The filesystem is read-only. -/
def writeHandler (pcb : Pcb) (tty : Tty) (user : Memory UInt8) (buf : Nat)
    (nbytes : Int) : FileOps → WriteOutcome
  | .stdout =>
      let bytes := loadUser user buf nbytes.toNat
      ⟨pcb, terminalWrite tty pcb.terminalNum bytes, nbytes, bytes⟩
  | .rtc =>
      let bytes := loadUser user buf 4
      let hertz := littleEndian bytes
      if hertz < minFreq ∨ hertz > maxFreq then ⟨pcb, tty, -1, bytes⟩
      else if hertz &&& (hertz - 1) ≠ 0 then ⟨pcb, tty, -1, bytes⟩
      else ⟨{ pcb with rtcInterval := maxFreq / hertz }, tty, 0, bytes⟩
  | _ => ⟨pcb, tty, -1, []⟩

/-- `syscall_write`. -/
def syscallWrite (pcb : Pcb) (tty : Tty) (user : Memory UInt8) (fd : Int)
    (buf : Nat) (nbytes : Int) : WriteOutcome :=
  if !inPageBounds buf nbytes then ⟨pcb, tty, -1, []⟩
  else
    match pcb.openFd fd with
    | none => ⟨pcb, tty, -1, []⟩
    | some (_, fops) =>
        if fops.hasWrite then writeHandler pcb tty user buf nbytes fops
        else ⟨pcb, tty, -1, []⟩

end PsychOS
