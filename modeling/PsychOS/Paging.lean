/-
The paging structures of the processes (`arch/x86/paging.c`).  Every slot has a
page directory and a page table at a fixed physical address, and all
directories share one table for the first 4MB.
-/
import PsychOS.Lib.PageWalk
import PsychOS.Terminal

namespace PsychOS

abbrev numPdEntries : Nat := 1024
abbrev numPtEntries : Nat := 1024
abbrev fourMbAligned : Nat := 4194304
abbrev pagingStructAddr : Nat := fourMbAligned * 31
abbrev processStructSize : Nat := fourKbAligned * 4
abbrev maxProcesses : Nat := 6
abbrev kernelPageEnd : Nat := 0x800000
abbrev processPageSize : Nat := 0x400000
abbrev processVirtPageStart : Nat := 0x8000000

def getProcessPd (slot : Nat) : Nat :=
  pagingStructAddr + processStructSize * slot

def getProcessPt (slot : Nat) : Nat :=
  pagingStructAddr + processStructSize * slot + fourKbAligned

def getProcessPageFromSlot (slot : Nat) : Nat :=
  kernelPageEnd + processPageSize * slot

/-- Always 132MB. -/
def getProcessVmemPage (_slot : Nat) : Nat := 33 * fourMbAligned

/-- What the stack variables hold in which the entries are built.  The source
assigns some of their bit fields and copies the variable. -/
structure Junk where
  blank : Nat → Nat
  video : Nat
  vmem : Nat → Nat
  kernel : Nat
  structs : Nat
  program : Nat → Nat
  userTable : Nat
  userPage : Nat
  unused : Nat → Nat
  process : Nat

def Junk.zero : Junk where
  blank := fun _ => 0
  video := 0
  vmem := fun _ => 0
  kernel := 0
  structs := 0
  program := fun _ => 0
  userTable := 0
  userPage := 0
  unused := fun _ => 0
  process := 0

/-- The entries that get `present = 0` and nothing else. -/
def absentEntry (junk : Nat) : PageEntry :=
  { PageEntry.ofVal junk with present := false }

/-- The entries that get every field but the reserved bits; all of them are
writable.  A frame number is cut to the 20 bits of its field. -/
def mappedEntry (junk frame : Nat) (globalPage pageSize user : Bool) :
    PageEntry :=
  { PageEntry.ofVal junk with
    frame := PageEntry.frameOf frame
    globalPage := globalPage
    pageSize := pageSize
    dirty := false
    accessed := false
    cacheDisabled := false
    writeThrough := false
    userAccessible := user
    readWrite := true
    present := true }

/-- Entry `i` of the table for the first 4MB. -/
def videoTableEntry (junk : Junk) (i : Nat) : PageEntry :=
  if fourKbAligned * i ≠ videoPhysAddr then absentEntry (junk.vmem i)
  else mappedEntry (junk.vmem i) (fourKbAligned * i / 4096) false false false

/-- `initialize_paging_structs`, over physical memory as 32-bit words. -/
def initializePagingStructs (layout : Layout) (junk : Junk)
    (mem : Memory Nat) (localPd localPt vmemAddr : Nat) : Memory Nat :=
  let pd := localPd / 4
  let pt := localPt / 4
  let mem := mem.storeEach pd (fun i => (absentEntry (junk.blank i)).val)
    numPdEntries
  let mem := mem.store pd
    (mappedEntry junk.video (layout.vmemPt / 4096) false false false).val
  let mem := mem.storeEach (layout.vmemPt / 4)
    (fun i => (videoTableEntry junk i).val) numPtEntries
  let mem := mem.store (pd + 1)
    (mappedEntry junk.kernel 1024 true true false).val
  let mem := mem.store (pd + 31)
    (mappedEntry junk.structs (pagingStructAddr / 4096) true true false).val
  let mem := mem.storeEach (pd + 2)
    (fun i => (mappedEntry (junk.program i) (2048 + 1024 * i)
      false true false).val) maxProcesses
  let mem := mem.store (pd + 33)
    (mappedEntry junk.userTable (localPt / 4096) false false true).val
  let mem := mem.store pt
    (mappedEntry junk.userPage (vmemAddr / 4096) false false true).val
  mem.storeEach (pt + 1)
    (fun i => (absentEntry (junk.unused (i + 1))).val) (numPtEntries - 1)

/-- `setup_process_paging`: the new memory; the directory it returns is
`getProcessPd slot`. -/
def setupProcessPaging (layout : Layout) (junk : Junk) (mem : Memory Nat)
    (processAddr slot vmemAddr : Nat) : Memory Nat :=
  let localPd := getProcessPd slot
  let localPt := getProcessPt slot
  let mem := initializePagingStructs layout junk mem localPd localPt vmemAddr
  let mem := mem.store (localPd / 4 + 32)
    (mappedEntry junk.process
      (processAddr / fourMbAligned * fourMbAligned / 4096)
      false true true).val
  mem.store (localPt / 4)
    { PageEntry.ofVal (mem (localPt / 4)) with userAccessible := true }.val

def setProcessVmemPage (mem : Memory Nat) (slot vmemAddr : Nat) :
    Memory Nat :=
  let localPt := getProcessPt slot
  mem.store (localPt / 4)
    { PageEntry.ofVal (mem (localPt / 4)) with
      frame := PageEntry.frameOf (vmemAddr / 4096)
      present := true }.val

/-- Entry `i` of the directory of a slot that has been set up. -/
def directoryEntry (layout : Layout) (junk : Junk) (slot i : Nat) :
    PageEntry :=
  if i = 32 then
    mappedEntry junk.process (2048 + 1024 * slot) false true true
  else if i = 33 then
    mappedEntry junk.userTable (getProcessPt slot / 4096) false false true
  else if 2 ≤ i ∧ i < 8 then
    mappedEntry (junk.program (i - 2)) (1024 * i) false true false
  else if i = 31 then mappedEntry junk.structs (1024 * 31) true true false
  else if i = 1 then mappedEntry junk.kernel 1024 true true false
  else if i = 0 then
    mappedEntry junk.video (layout.vmemPt / 4096) false false false
  else absentEntry (junk.blank i)

/-- Entry `i` of the table of a slot that shows `vmemAddr` at 132MB. -/
def userTableEntry (junk : Junk) (vmemAddr i : Nat) : PageEntry :=
  if i = 0 then mappedEntry junk.userPage (vmemAddr / 4096) false false true
  else absentEntry (junk.unused i)

end PsychOS
