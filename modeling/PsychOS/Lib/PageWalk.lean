/-
Two-level address translation of a 32-bit x86 with page size extensions.
Entries are 32-bit words with bit fields; the walk reads a directory entry and,
unless that maps a 4MB page, a table entry.
-/
import PsychOS.Lib.Memory

namespace PsychOS

/-- The bit fields of a page directory or page table entry, lowest first. -/
@[ext]
structure PageEntry where
  present : Bool
  readWrite : Bool
  userAccessible : Bool
  writeThrough : Bool
  cacheDisabled : Bool
  accessed : Bool
  dirty : Bool
  pageSize : Bool
  globalPage : Bool
  reserved : Fin 8
  frame : Fin 1048576
  deriving DecidableEq

namespace PageEntry

/-- The entry as a word. -/
def val (entry : PageEntry) : Nat :=
  entry.present.toNat + 2 * entry.readWrite.toNat +
    4 * entry.userAccessible.toNat + 8 * entry.writeThrough.toNat +
    16 * entry.cacheDisabled.toNat + 32 * entry.accessed.toNat +
    64 * entry.dirty.toNat + 128 * entry.pageSize.toNat +
    256 * entry.globalPage.toNat + 512 * entry.reserved.val +
    4096 * entry.frame.val

/-- Bit `2 ^ k` of a word, given as `scale`. -/
def bit (word scale : Nat) : Bool := word / scale % 2 == 1

/-- A frame number, cut to the 20 bits that hold it. -/
def frameOf (number : Nat) : Fin 1048576 := Fin.ofNat 1048576 number

/-- The word read through the bit fields. -/
def ofVal (word : Nat) : PageEntry where
  present := bit word 1
  readWrite := bit word 2
  userAccessible := bit word 4
  writeThrough := bit word 8
  cacheDisabled := bit word 16
  accessed := bit word 32
  dirty := bit word 64
  pageSize := bit word 128
  globalPage := bit word 256
  reserved := Fin.ofNat 8 (word / 512)
  frame := frameOf (word / 4096)

theorem bit_eq {word scale : Nat} {b : Bool}
    (hbit : word / scale % 2 = b.toNat) : bit word scale = b := by
  rw [bit, hbit]
  cases b <;> rfl

@[simp]
theorem ofVal_val (entry : PageEntry) : ofVal entry.val = entry := by
  obtain ⟨p, rw, us, pwt, pcd, a, d, ps, g, reserved, frame⟩ := entry
  have h0 := p.toNat_le
  have h1 := rw.toNat_le
  have h2 := us.toNat_le
  have h3 := pwt.toNat_le
  have h4 := pcd.toNat_le
  have h5 := a.toNat_le
  have h6 := d.toNat_le
  have h7 := ps.toNat_le
  have h8 := g.toNat_le
  have h9 := reserved.isLt
  have h10 := frame.isLt
  ext
  all_goals simp only [ofVal, val]
  case present => exact bit_eq (by omega)
  case readWrite => exact bit_eq (by omega)
  case userAccessible => exact bit_eq (by omega)
  case writeThrough => exact bit_eq (by omega)
  case cacheDisabled => exact bit_eq (by omega)
  case accessed => exact bit_eq (by omega)
  case dirty => exact bit_eq (by omega)
  case pageSize => exact bit_eq (by omega)
  case globalPage => exact bit_eq (by omega)
  case reserved =>
    simp only [Fin.ofNat]
    omega
  case frame =>
    simp only [frameOf, Fin.ofNat]
    omega

end PageEntry

/-- Who accesses memory, and how. -/
structure Access where
  user : Bool
  write : Bool

/-- An entry lets the access through.  Supervisor accesses ignore the
read/write bit, since CR0.WP is clear. -/
def PageEntry.permits (entry : PageEntry) (access : Access) : Bool :=
  entry.present && (!access.user ||
    (entry.userAccessible && (!access.write || entry.readWrite)))

/-- The second level: a page table at the physical address `table`. -/
def tableWalk (mem : Memory Nat) (table : Nat) (access : Access)
    (addr : Nat) : Option Nat :=
  let entry := PageEntry.ofVal (mem (table / 4 + addr / 4096 % 1024))
  if entry.permits access then some (entry.frame * 4096 + addr % 4096)
  else none

/-- Translate `addr` through the page directory at the physical address `cr3`.
Physical memory is given as 32-bit words.  Bits 13 to 21 of an entry for a 4MB
page are reserved. -/
def pageWalk (mem : Memory Nat) (cr3 : Nat) (access : Access) (addr : Nat) :
    Option Nat :=
  let entry := PageEntry.ofVal (mem (cr3 / 4 + addr / 4194304))
  if entry.permits access then
    if entry.pageSize then
      if entry.frame.val % 1024 / 2 = 0 then
        some (entry.frame.val / 1024 * 4194304 + addr % 4194304)
      else none
    else tableWalk mem (entry.frame * 4096) access addr
  else none

section Walk

variable {mem : Memory Nat} {access : Access} {addr : Nat}
  {entry : PageEntry}

theorem tableWalk_refused {table : Nat}
    (hentry : PageEntry.ofVal (mem (table / 4 + addr / 4096 % 1024)) = entry)
    (hpermits : entry.permits access = false) :
    tableWalk mem table access addr = none := by
  simp [tableWalk, hentry, hpermits]

theorem tableWalk_page {table : Nat}
    (hentry : PageEntry.ofVal (mem (table / 4 + addr / 4096 % 1024)) = entry)
    (hpermits : entry.permits access = true) :
    tableWalk mem table access addr =
      some (entry.frame * 4096 + addr % 4096) := by
  simp [tableWalk, hentry, hpermits]

theorem pageWalk_refused {cr3 : Nat}
    (hentry : PageEntry.ofVal (mem (cr3 / 4 + addr / 4194304)) = entry)
    (hpermits : entry.permits access = false) :
    pageWalk mem cr3 access addr = none := by
  simp [pageWalk, hentry, hpermits]

/-- A 4MB page on a 4MB boundary. -/
theorem pageWalk_large {cr3 : Nat}
    (hentry : PageEntry.ofVal (mem (cr3 / 4 + addr / 4194304)) = entry)
    (hpermits : entry.permits access = true) (hsize : entry.pageSize = true)
    (haligned : entry.frame.val % 1024 = 0) :
    pageWalk mem cr3 access addr =
      some (entry.frame * 4096 + addr % 4194304) := by
  have hreserved : entry.frame.val % 1024 / 2 = 0 := by omega
  have hbase : entry.frame.val / 1024 * 4194304 =
      entry.frame.val * 4096 := by omega
  simp only [pageWalk, hentry, hpermits, hsize, hreserved, hbase, ↓reduceIte]

theorem pageWalk_table {cr3 : Nat}
    (hentry : PageEntry.ofVal (mem (cr3 / 4 + addr / 4194304)) = entry)
    (hpermits : entry.permits access = true)
    (hsize : entry.pageSize = false) :
    pageWalk mem cr3 access addr =
      tableWalk mem (entry.frame * 4096) access addr := by
  simp [pageWalk, hentry, hpermits, hsize]

end Walk

end PsychOS
