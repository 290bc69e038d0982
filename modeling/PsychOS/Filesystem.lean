/-
The read-only filesystem (`fs/ece391_fs.c`) and the string functions it uses.
An image is a boot block with directory entries, inodes and data blocks.
-/
import Mathlib.Algebra.Group.Int.Defs
import Mathlib.Algebra.Group.Nat.Defs
import PsychOS.Lib.Memory

namespace PsychOS

abbrev maxFileNameLength : Nat := 32
abbrev fsBlockSize : Nat := 4096

/-- An unsigned 32-bit value returned as `int32_t`. -/
def toInt32 (value : Nat) : Int :=
  if value % 2 ^ 32 < 2 ^ 31 then ((value % 2 ^ 32 : Nat) : Int)
  else ((value % 2 ^ 32 : Nat) : Int) - 2 ^ 32

/-- `strncmp` from position `i` on, with `count` characters left.  The
characters are signed bytes. -/
def strncmpFrom (s1 s2 : Memory UInt8) (i : Nat) : Nat → Int
  | 0 => 0
  | count + 1 =>
      if s1 i ≠ s2 i ∨ s1 i = 0 then
        (s1 i).toInt8.toInt - (s2 i).toInt8.toInt
      else strncmpFrom s1 s2 (i + 1) count

def strncmp (s1 s2 : Memory UInt8) (n : Nat) : Int := strncmpFrom s1 s2 0 n

/-- `strncpy` from position `i` on: the bytes it stores. -/
def strncpyFrom (src : Memory UInt8) (i : Nat) : Nat → List UInt8
  | 0 => []
  | count + 1 =>
      if src i ≠ 0 then src i :: strncpyFrom src (i + 1) count
      else List.replicate (count + 1) 0

def strncpy (src : Memory UInt8) (n : Nat) : List UInt8 := strncpyFrom src 0 n

/-- A string of the caller, followed by its terminator. -/
def cString (bytes : List UInt8) : Memory UInt8 := fun i => bytes.getD i 0

structure Dentry where
  fileName : Memory UInt8
  fileType : Nat
  inodeNum : Nat
  reserved : Fin 24 → UInt8

/-- A filesystem image: `directoryEntries i`, the length and block numbers of
each inode, and the bytes of each data block. -/
structure Image where
  numDirectoryEntries : Nat
  numInodes : Nat
  numDataBlocks : Nat
  directoryEntries : Nat → Dentry
  fileLength : Nat → Nat
  dataBlocks : Nat → Nat → Nat
  data : Nat → Memory UInt8

namespace Image

variable (img : Image)

/-- What `read_dentry_by_name` and `read_dentry_by_index` copy out: the name by
`strncpy`, the other fields as they are. -/
def copyDentry (entry : Dentry) : Dentry :=
  { entry with fileName := cString (strncpy entry.fileName maxFileNameLength) }

/-- The first entry with that name; `none` for the result -1. -/
def readDentryByName (fname : Memory UInt8) : Option Dentry :=
  ((List.range img.numDirectoryEntries).find? fun i =>
    strncmp fname (img.directoryEntries i).fileName maxFileNameLength == 0).map
    fun i => copyDentry (img.directoryEntries i)

def readDentryByIndex (index : Nat) : Option Dentry :=
  if index ≥ img.numDirectoryEntries then none
  else some (copyDentry (img.directoryEntries index))

/-- `read_block`: the bytes copied, `none` for the result -1. -/
def readBlock (blockIndex offset length : Nat) : Option (List UInt8) :=
  if blockIndex ≥ img.numDataBlocks then none
  else if offset ≥ fsBlockSize then none
  else
    let length :=
      if length > fsBlockSize - offset then fsBlockSize - offset else length
    some ((img.data blockIndex).load offset length)

/-- The copy loop of `read_data`.  `written` are the bytes stored so far, of
which there are `bytes_written`; each turn stores at least one more, so
`length` turns are enough. -/
def readDataLoop (inode length : Nat) :
    Nat → Nat → Nat → Nat → List UInt8 → Int × List UInt8
  | 0, _, _, _, written => (toInt32 written.length, written)
  | fuel + 1, blockNum, filePos, blockPos, written =>
      if written.length < length ∧ filePos < img.fileLength inode then
        let numBytesToCopy :=
          if fsBlockSize - blockPos > length - written.length then
            length - written.length
          else fsBlockSize - blockPos
        match img.readBlock (img.dataBlocks inode blockNum) blockPos
            numBytesToCopy with
        | none => (-1, written)
        | some bytes =>
            let blockPos := blockPos + bytes.length
            let next := if blockPos ≥ fsBlockSize then
              (blockNum + 1, blockPos - fsBlockSize) else (blockNum, blockPos)
            readDataLoop inode length fuel next.1
              ((filePos + bytes.length) % 2 ^ 32) next.2 (written ++ bytes)
      else (toInt32 written.length, written)

/-- `read_data`: the result and the bytes stored to the buffer. -/
def readData (inode offset length : Nat) : Int × List UInt8 :=
  if inode ≥ img.numInodes then (-1, [])
  else if offset ≥ img.fileLength inode then (0, [])
  else
    let length :=
      if (length + offset) % 2 ^ 32 > img.fileLength inode then
        img.fileLength inode - offset
      else length
    img.readDataLoop inode length length (offset / fsBlockSize) offset
      (offset % fsBlockSize) []

/-- `read_file_by_name`. -/
def readFileByName (fname : Memory UInt8) (nbytes : Nat) :
    Int × List UInt8 :=
  match img.readDentryByName fname with
  | none => (-1, [])
  | some dentry => img.readData dentry.inodeNum 0 nbytes

end Image

end PsychOS
