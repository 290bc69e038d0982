/-
What the filesystem holds, apart from how it is stored: every inode has a
content, a list of bytes, and reading copies a piece of it.
-/
import PsychOS.Filesystem

namespace PsychOS

/-- At most 63 entries, which name inodes that exist; and inodes whose files
fit their block table and whose blocks exist. -/
structure Image.WellFormed (img : Image) : Prop where
  numDirectoryEntries_le : img.numDirectoryEntries ≤ 63
  inode_lt : ∀ i < img.numDirectoryEntries,
    (img.directoryEntries i).inodeNum < img.numInodes
  fileLength_le : ∀ inode < img.numInodes,
    img.fileLength inode ≤ 1023 * fsBlockSize
  block_lt : ∀ inode < img.numInodes, ∀ i,
    i * fsBlockSize < img.fileLength inode →
      img.dataBlocks inode i < img.numDataBlocks

/-- Byte `k` of a file, counted from its start. -/
def Image.byteAt (img : Image) (inode : Nat) : Memory UInt8 := fun k =>
  img.data (img.dataBlocks inode (k / fsBlockSize)) (k % fsBlockSize)

def Image.content (img : Image) (inode : Nat) : List UInt8 :=
  (img.byteAt inode).load 0 (img.fileLength inode)

/-- A name cut at its terminator and padded to 32 bytes. -/
def Dentry.paddedName (entry : Dentry) : List UInt8 :=
  let name := (entry.fileName.load 0 maxFileNameLength).takeWhile (· ≠ 0)
  name ++ List.replicate (maxFileNameLength - name.length) 0

section Names

variable (src : Memory UInt8)

theorem strncpyFrom_eq (i count : Nat) :
    strncpyFrom src i count =
      (src.load i count).takeWhile (· ≠ 0) ++ List.replicate
        (count - ((src.load i count).takeWhile (· ≠ 0)).length) 0 := by
  induction count generalizing i with
  | zero => rfl
  | succ count ih =>
      rw [strncpyFrom, src.load_succ]
      by_cases hzero : src i = 0
      · simp [hzero]
      · rw [if_pos hzero, ih, List.takeWhile_cons_of_pos (by simpa using hzero)]
        simp

theorem strncpyFrom_length (i count : Nat) :
    (strncpyFrom src i count).length = count := by
  induction count generalizing i with
  | zero => rfl
  | succ count ih =>
      rw [strncpyFrom]
      split
      · rw [List.length_cons, ih]
      · exact List.length_replicate

/-- Reading a stored string back through its terminator-padded form. -/
theorem load_cString (bytes : List UInt8) {count : Nat}
    (hcount : count ≤ bytes.length) :
    (cString bytes).load 0 count = bytes.take count := by
  apply List.ext_getElem
  · simp [hcount]
  · intro i hi hi'
    simp only [Memory.load_length] at hi
    simp [Memory.load, cString, Nat.lt_of_lt_of_le hi hcount]

theorem Dentry.strncpy_eq_paddedName (entry : Dentry) :
    strncpy entry.fileName maxFileNameLength = entry.paddedName :=
  strncpyFrom_eq entry.fileName 0 maxFileNameLength

theorem Dentry.paddedName_length (entry : Dentry) :
    entry.paddedName.length = maxFileNameLength := by
  rw [← entry.strncpy_eq_paddedName]
  exact strncpyFrom_length entry.fileName 0 maxFileNameLength

/-- The name `dir_read` copies from. -/
theorem copyDentry_load (entry : Dentry) {count : Nat}
    (hcount : count ≤ maxFileNameLength) :
    (Image.copyDentry entry).fileName.load 0 count =
      entry.paddedName.take count := by
  rw [Image.copyDentry, entry.strncpy_eq_paddedName]
  apply load_cString
  rwa [entry.paddedName_length]

end Names

section Reading

variable {img : Image} {inode : Nat}

/-- A piece of a block is a piece of the file. -/
theorem readBlock_eq {filePos length : Nat}
    (hblock : img.dataBlocks inode (filePos / fsBlockSize) <
      img.numDataBlocks)
    (hlength : length ≤ fsBlockSize - filePos % fsBlockSize) :
    img.readBlock (img.dataBlocks inode (filePos / fsBlockSize))
        (filePos % fsBlockSize) length =
      some ((img.byteAt inode).load filePos length) := by
  have hoffset : filePos % fsBlockSize < fsBlockSize :=
    Nat.mod_lt _ (by decide)
  rw [Image.readBlock, if_neg (Nat.not_le_of_lt hblock),
    if_neg (Nat.not_le_of_lt hoffset)]
  simp only [Nat.not_lt_of_le hlength, ↓reduceIte]
  congr 1
  apply Memory.load_congr
  intro i hi
  have hdiv : (filePos + i) / fsBlockSize = filePos / fsBlockSize := by
    simp only [fsBlockSize] at *
    omega
  have hmod : (filePos + i) % fsBlockSize = filePos % fsBlockSize + i := by
    simp only [fsBlockSize] at *
    omega
  rw [Image.byteAt, hdiv, hmod]

/-- The block number and the offset after a copy inside one block. -/
theorem nextBlock_eq {filePos count : Nat}
    (hcount : count ≤ fsBlockSize - filePos % fsBlockSize) :
    (if filePos % fsBlockSize + count ≥ fsBlockSize then
        (filePos / fsBlockSize + 1,
          filePos % fsBlockSize + count - fsBlockSize)
      else (filePos / fsBlockSize, filePos % fsBlockSize + count)) =
      ((filePos + count) / fsBlockSize, (filePos + count) % fsBlockSize) := by
  simp only [fsBlockSize] at *
  split
  · rw [Prod.mk.injEq]
    omega
  · rw [Prod.mk.injEq]
    omega

/-- Where the last block of a file ends. -/
def Image.blocksEnd (img : Image) (inode : Nat) : Nat :=
  (img.fileLength inode + (fsBlockSize - 1)) / fsBlockSize * fsBlockSize

/-- How far the loop of `read_data` gets with this length: to the end of the
last block, unless that is where the file position wraps around. -/
def Image.reach (img : Image) (inode offset length : Nat) : Nat :=
  if img.blocksEnd inode < 2 ^ 32 then
    min length (img.blocksEnd inode - offset)
  else length

/-- How many bytes `read_data` sets out to copy.  The length is cut at the end
of the file unless its sum with the offset wraps around. -/
def Image.wanted (img : Image) (inode offset length : Nat) : Nat :=
  if (length + offset) % 2 ^ 32 > img.fileLength inode then
    img.fileLength inode - offset
  else img.reach inode offset length

/-- How many of `count` bytes from `offset` on come before the first that is
in a block that does not exist. -/
def Image.readable (img : Image) (inode offset count : Nat) : Nat :=
  ((List.range' offset count).takeWhile fun filePos =>
    img.dataBlocks inode (filePos / fsBlockSize) <
      img.numDataBlocks).length

theorem readable_zero (offset : Nat) : img.readable inode offset 0 = 0 := rfl

theorem readable_add {offset count : Nat} (rest : Nat)
    (hvalid : ∀ i < count, img.dataBlocks inode ((offset + i) / fsBlockSize) <
      img.numDataBlocks) :
    img.readable inode offset (count + rest) =
      count + img.readable inode (offset + count) rest := by
  have hsplit : List.range' offset (count + rest) =
      List.range' offset count ++ List.range' (offset + count) rest := by
    rw [List.range'_append_1]
  rw [Image.readable, hsplit, List.takeWhile_append_of_pos,
    List.length_append, List.length_range']
  · rfl
  · intro filePos hmem
    obtain ⟨hlo, hhi⟩ := List.mem_range'_1.mp hmem
    obtain ⟨i, rfl⟩ := Nat.exists_eq_add_of_le hlo
    exact decide_eq_true (hvalid i (by omega))

theorem readable_eq_self {offset count : Nat}
    (hvalid : ∀ i < count, img.dataBlocks inode ((offset + i) / fsBlockSize) <
      img.numDataBlocks) :
    img.readable inode offset count = count :=
  readable_add 0 hvalid

theorem readable_of_bad {offset count : Nat}
    (hbad : ¬ img.dataBlocks inode (offset / fsBlockSize) <
      img.numDataBlocks) :
    img.readable inode offset count = 0 := by
  cases count with
  | zero => rfl
  | succ count =>
      rw [Image.readable, List.range'_succ, List.takeWhile_cons_of_neg]
      · rfl
      · simpa using hbad

theorem readable_le (offset count : Nat) :
    img.readable inode offset count ≤ count := by
  have hle := (List.takeWhile_sublist (fun filePos =>
    decide (img.dataBlocks inode (filePos / fsBlockSize) <
      img.numDataBlocks)) (l := List.range' offset count)).length_le
  rwa [List.length_range'] at hle

theorem readable_eq_self_iff (offset count : Nat) :
    img.readable inode offset count = count ↔
      ∀ i < count, img.dataBlocks inode ((offset + i) / fsBlockSize) <
        img.numDataBlocks := by
  constructor
  · intro hall i hi
    by_contra hbad
    -- the bytes before the first bad one are fewer than asked for
    have hfirst : img.readable inode (offset + i) (count - i) = 0 :=
      readable_of_bad hbad
    have hsplit : List.range' offset count =
        List.range' offset i ++ List.range' (offset + i) (count - i) := by
      rw [List.range'_append_1]
      congr 1
      omega
    have hshort : img.readable inode offset count ≤ i := by
      rw [Image.readable, hsplit, List.takeWhile_append]
      split
      · rw [List.length_append, List.length_range']
        exact Nat.le_of_eq (congrArg (i + ·) hfirst)
      · exact readable_le offset i
    omega
  · exact readable_eq_self

theorem readable_pos {offset count : Nat} (hcount : 0 < count) :
    0 < img.readable inode offset count ↔
      img.dataBlocks inode (offset / fsBlockSize) < img.numDataBlocks := by
  constructor
  · intro hpos
    by_contra hbad
    rw [readable_of_bad hbad] at hpos
    exact Nat.lt_irrefl 0 hpos
  · intro hblock
    obtain ⟨rest, rfl⟩ := Nat.exists_eq_add_of_le hcount
    rw [readable_add]
    · omega
    · intro i hi
      obtain rfl : i = 0 := by omega
      exact hblock

theorem reach_cases (img : Image) (inode offset length : Nat) :
    (img.blocksEnd inode < 2 ^ 32 ∧ img.reach inode offset length =
        min length (img.blocksEnd inode - offset)) ∨
      (2 ^ 32 ≤ img.blocksEnd inode ∧
        img.reach inode offset length = length) := by
  by_cases hend : img.blocksEnd inode < 2 ^ 32
  · exact Or.inl ⟨hend, if_pos hend⟩
  · exact Or.inr ⟨Nat.le_of_not_lt hend, if_neg hend⟩

/-- One turn of the loop stays in its block and within reach, and it ends
inside the file or with all that is in reach. -/
theorem turn_bounds {offset length written count : Nat}
    (hsize : img.fileLength inode < 2 ^ 32)
    (hoffset : offset < img.fileLength inode) (hlength : length < 2 ^ 32)
    (hmore : written < img.reach inode offset length)
    (hfile : (offset + written) % 2 ^ 32 < img.fileLength inode)
    (hcount : count = if fsBlockSize - (offset + written) % fsBlockSize >
        length - written then length - written
      else fsBlockSize - (offset + written) % fsBlockSize) :
    0 < count ∧ count ≤ fsBlockSize - (offset + written) % fsBlockSize ∧
      written + count ≤ img.reach inode offset length ∧
      ((offset + written + count) % 2 ^ 32 < img.fileLength inode ∨
        written + count = img.reach inode offset length) := by
  rcases reach_cases img inode offset length with hreach | hreach
  · simp only [hreach.2] at hmore ⊢
    simp only [Image.blocksEnd, fsBlockSize] at *
    split at hcount <;> omega
  · simp only [hreach.2] at hmore ⊢
    simp only [Image.blocksEnd, fsBlockSize] at *
    split at hcount <;> omega

theorem reach_le (offset length : Nat) :
    img.reach inode offset length ≤ length := by
  rcases reach_cases img inode offset length with hreach | hreach
  · exact hreach.2 ▸ Nat.min_le_left _ _
  · exact Nat.le_of_eq hreach.2

theorem wanted_le {offset length : Nat}
    (hoffset : offset < img.fileLength inode) :
    img.wanted inode offset length ≤ length := by
  have hreach := @reach_le img inode offset length
  rw [Image.wanted]
  split <;> omega

theorem wanted_pos {offset length : Nat}
    (hoffset : offset < img.fileLength inode) (hlength : 0 < length) :
    0 < img.wanted inode offset length := by
  have hreach := reach_cases img inode offset length
  simp only [Image.blocksEnd, fsBlockSize] at hreach
  rw [Image.wanted]
  split <;> omega

/-- The loop's condition fails once everything in reach is copied. -/
theorem loop_stops {offset length : Nat}
    (hoffset : offset < img.fileLength inode) :
    ¬ (img.reach inode offset length < length ∧
      (offset + img.reach inode offset length) % 2 ^ 32 <
        img.fileLength inode) := by
  rcases reach_cases img inode offset length with hend | hend
  · rw [hend.2]
    simp only [Image.blocksEnd, fsBlockSize] at hend ⊢
    omega
  · omega

/-- The bytes of one turn are readable together, since they are in one block. -/
theorem readable_turn {pos count rest : Nat}
    (hblock : img.dataBlocks inode (pos / fsBlockSize) < img.numDataBlocks)
    (hcount : count ≤ fsBlockSize - pos % fsBlockSize) :
    img.readable inode pos (count + rest) =
      count + img.readable inode (pos + count) rest := by
  apply readable_add
  intro i hi
  have hsame : (pos + i) / fsBlockSize = pos / fsBlockSize := by
    simp only [fsBlockSize] at *
    omega
  rwa [hsame]

/-- The loop copies what is in reach up to the first block that does not exist.
The induction is on the turns left; each turn moves the position to the end of
its block or of the request. -/
theorem readDataLoop_spec (hsize : img.fileLength inode < 2 ^ 32)
    {offset length fuel : Nat} {written : List UInt8}
    (hoffset : offset < img.fileLength inode) (hlength : length < 2 ^ 32)
    (hwritten : written.length ≤ img.reach inode offset length)
    (hpos : (offset + written.length) % 2 ^ 32 < img.fileLength inode ∨
      written.length = img.reach inode offset length)
    (hfuel : length - written.length ≤ fuel) :
    img.readDataLoop inode length fuel
        ((offset + written.length) / fsBlockSize)
        ((offset + written.length) % 2 ^ 32)
        ((offset + written.length) % fsBlockSize) written =
      (if img.readable inode (offset + written.length)
          (img.reach inode offset length - written.length) =
          img.reach inode offset length - written.length then
          toInt32 (img.reach inode offset length)
        else -1,
        written ++ (img.byteAt inode).load (offset + written.length)
          (img.readable inode (offset + written.length)
            (img.reach inode offset length - written.length))) := by
  have hreach : img.reach inode offset length ≤ length := reach_le _ _
  induction fuel generalizing written with
  | zero =>
      have hdone : written.length = img.reach inode offset length := by omega
      simp [Image.readDataLoop, hdone, readable_zero, Memory.load]
  | succ fuel ih =>
      rw [Image.readDataLoop]
      by_cases hmore : written.length < img.reach inode offset length
      · have hfile : (offset + written.length) % 2 ^ 32 <
            img.fileLength inode := hpos.resolve_right (Nat.ne_of_lt hmore)
        rw [if_pos ⟨Nat.lt_of_lt_of_le hmore hreach, hfile⟩]
        generalize hcount : (if fsBlockSize -
          (offset + written.length) % fsBlockSize > length - written.length
          then length - written.length
          else fsBlockSize - (offset + written.length) % fsBlockSize) = count
        obtain ⟨hpositive, hblockEnd, hle, hnext⟩ :=
          turn_bounds hsize hoffset hlength hmore hfile hcount.symm
        by_cases hblock : img.dataBlocks inode
            ((offset + written.length) / fsBlockSize) < img.numDataBlocks
        · have hbytes := readBlock_eq hblock hblockEnd
          simp only [hbytes, Memory.load_length, nextBlock_eq hblockEnd,
            Nat.mod_add_mod]
          have hrest := @ih (written ++ (img.byteAt inode).load
            (offset + written.length) count)
          simp only [List.length_append, Memory.load_length,
            ← Nat.add_assoc] at hrest
          rw [hrest hle hnext (by omega)]
          have hleft : img.reach inode offset length - written.length =
              count +
                (img.reach inode offset length - (written.length + count)) := by
            omega
          rw [hleft, readable_turn hblock hblockEnd, Memory.load_add,
            List.append_assoc]
          refine congrArg (·, _) (if_congr ?_ rfl rfl)
          omega
        · have hnone : img.readBlock (img.dataBlocks inode
              ((offset + written.length) / fsBlockSize))
              ((offset + written.length) % fsBlockSize) count = none := by
            rw [Image.readBlock, if_pos (Nat.le_of_not_lt hblock)]
          simp only [hnone, readable_of_bad hblock]
          rw [if_neg (by omega)]
          simp [Memory.load]
      · have hdone : written.length = img.reach inode offset length := by
          omega
        rw [if_neg (hdone ▸ loop_stops hoffset)]
        simp [hdone, readable_zero, Memory.load]

/-- What `read_data` sets out to copy is what is in reach with the length it
cuts the request to. -/
theorem wanted_eq_reach {offset length cut : Nat}
    (hcut : (if (length + offset) % 2 ^ 32 > img.fileLength inode then
      img.fileLength inode - offset else length) = cut) :
    img.wanted inode offset length = img.reach inode offset cut := by
  rw [Image.wanted]
  split at hcut
  · rw [if_pos ‹_›, ← hcut]
    rcases reach_cases img inode offset (img.fileLength inode - offset)
      with hend | hend
    · simp only [Image.blocksEnd, fsBlockSize] at hend
      omega
    · exact hend.2.symm
  · rw [if_neg ‹_›, hcut]

/-- `read_data` inside a file: the bytes before the first that is in a block
that does not exist, and -1 if there is one. -/
theorem readData_spec (hinode : inode < img.numInodes)
    (hsize : img.fileLength inode < 2 ^ 32)
    {offset length : Nat} (hoffset : offset < img.fileLength inode)
    (hlength : length < 2 ^ 32) :
    img.readData inode offset length =
      (if img.readable inode offset (img.wanted inode offset length) =
          img.wanted inode offset length then
          toInt32 (img.wanted inode offset length)
        else -1,
        (img.byteAt inode).load offset
          (img.readable inode offset (img.wanted inode offset length))) := by
  rw [Image.readData, if_neg (Nat.not_le_of_lt hinode),
    if_neg (Nat.not_le_of_lt hoffset)]
  dsimp only
  generalize hcut : (if (length + offset) % 2 ^ 32 > img.fileLength inode then
    img.fileLength inode - offset else length) = cut
  have hwanted := wanted_eq_reach hcut
  have hcutLt : cut < 2 ^ 32 := by
    rw [← hcut]
    split <;> omega
  have hfirst : offset % 2 ^ 32 = offset :=
    Nat.mod_eq_of_lt (Nat.lt_trans hoffset hsize)
  have hloop := @readDataLoop_spec img inode hsize offset cut cut [] hoffset
    hcutLt (Nat.zero_le _) (Or.inl (by rwa [List.length_nil, Nat.add_zero,
      hfirst])) (Nat.sub_le _ _)
  rw [List.length_nil, Nat.add_zero, hfirst] at hloop
  rw [hwanted]
  exact hloop

theorem readBlock_length_le {blockIndex offset length : Nat}
    {bytes : List UInt8}
    (hread : img.readBlock blockIndex offset length = some bytes) :
    bytes.length ≤ length := by
  rw [Image.readBlock] at hread
  split at hread
  · contradiction
  · split at hread
    · contradiction
    · rw [← Option.some.inj hread, Memory.load_length]
      split <;> omega

/-- A turn of the loop copies no more than is left of the request. -/
theorem readDataLoop_length_le (length fuel blockNum filePos blockPos : Nat)
    {written : List UInt8} (hwritten : written.length ≤ length) :
    (img.readDataLoop inode length fuel blockNum filePos blockPos
      written).2.length ≤ length := by
  induction fuel generalizing blockNum filePos blockPos written with
  | zero => exact hwritten
  | succ fuel ih =>
      rw [Image.readDataLoop]
      generalize hcount : (if fsBlockSize - blockPos > length - written.length
        then length - written.length else fsBlockSize - blockPos) = count
      have hle : count ≤ length - written.length := by
        rw [← hcount]
        split <;> omega
      split
      · dsimp only
        cases hblock : img.readBlock (img.dataBlocks inode blockNum) blockPos
            count with
        | none => exact hwritten
        | some bytes =>
            have hbytes := readBlock_length_le hblock
            apply ih
            rw [List.length_append]
            omega
      · exact hwritten

/-- `read_data` stores no more than it is asked for, whatever sizes the image
has. -/
theorem readData_stored_le (inode offset length : Nat) :
    (img.readData inode offset length).2.length ≤ length := by
  rw [Image.readData]
  split
  · exact Nat.zero_le _
  · split
    · exact Nat.zero_le _
    · have hnone (cut : Nat) : ([] : List UInt8).length ≤ cut :=
        Nat.zero_le cut
      refine Nat.le_trans (readDataLoop_length_le _ _ _ _ _ (hnone _)) ?_
      split
      · have hmod := Nat.mod_le (length + offset) (2 ^ 32)
        omega
      · exact Nat.le_refl _

/-- Without wrap-around the length is cut at the end of the file. -/
theorem wanted_eq_min {offset length : Nat}
    (hsize : img.fileLength inode ≤ 1023 * fsBlockSize)
    (hoffset : offset < img.fileLength inode) (hlength : length < 2 ^ 31) :
    img.wanted inode offset length =
      min length (img.fileLength inode - offset) := by
  have hreach := reach_cases img inode offset length
  simp only [Image.blocksEnd, fsBlockSize] at hsize hreach
  rw [Image.wanted]
  split <;> omega

/-- `read_data` on files that fit their block table: the requested piece, cut
at the end of the file, up to the first block that does not exist. -/
theorem readData_cut (hinode : inode < img.numInodes)
    (hsize : img.fileLength inode ≤ 1023 * fsBlockSize)
    {offset length : Nat} (hlength : length < 2 ^ 31) :
    img.readData inode offset length =
      (if img.readable inode offset
          (min length (img.fileLength inode - offset)) =
          min length (img.fileLength inode - offset) then
          ((min length (img.fileLength inode - offset) : Nat) : Int)
        else -1,
        (img.byteAt inode).load offset (img.readable inode offset
          (min length (img.fileLength inode - offset)))) := by
  by_cases heof : offset ≥ img.fileLength inode
  · have hzero : min length (img.fileLength inode - offset) = 0 := by omega
    rw [Image.readData, if_neg (Nat.not_le_of_lt hinode), if_pos heof, hzero]
    rfl
  · have hinside : offset < img.fileLength inode := Nat.lt_of_not_le heof
    have hwanted := wanted_eq_min hsize hinside hlength
    simp only [fsBlockSize] at hsize
    rw [readData_spec hinode (by omega) hinside (by omega), hwanted, toInt32]
    have hsmall : min length (img.fileLength inode - offset) % 2 ^ 32 =
        min length (img.fileLength inode - offset) := by omega
    have hlow : min length (img.fileLength inode - offset) < 2 ^ 31 := by
      omega
    simp only [hsmall, hlow, ↓reduceIte]

/-- `read_data` on a well-formed image copies the requested piece of the
content, cut at the end of the file. -/
theorem readData_eq (hwf : img.WellFormed) (hinode : inode < img.numInodes)
    {offset length : Nat} (hoffset : offset ≤ img.fileLength inode)
    (hlength : length < 2 ^ 31) :
    img.readData inode offset length =
      (((min length (img.fileLength inode - offset) : Nat) : Int),
        (img.byteAt inode).load offset
          (min length (img.fileLength inode - offset))) := by
  have hall : img.readable inode offset
      (min length (img.fileLength inode - offset)) =
      min length (img.fileLength inode - offset) := by
    apply readable_eq_self
    intro i hi
    apply hwf.block_lt inode hinode
    simp only [fsBlockSize]
    omega
  rw [readData_cut hinode (hwf.fileLength_le inode hinode) hlength, hall,
    if_pos rfl]

end Reading

section Blocks

variable (img : Image) (inode : Nat)

/-- What a file's data blocks hold, one block after the other in the order of
its block table. -/
def Image.blockContent : List UInt8 :=
  (List.range 1023).flatMap fun k =>
    (img.data (img.dataBlocks inode k)).load 0 fsBlockSize

theorem block_eq (k : Nat) :
    (img.data (img.dataBlocks inode k)).load 0 fsBlockSize =
      (img.byteAt inode).load (k * fsBlockSize) fsBlockSize := by
  apply Memory.load_congr
  intro i hi
  have hdiv : (k * fsBlockSize + i) / fsBlockSize = k := by
    simp only [fsBlockSize] at *
    omega
  have hmod : (k * fsBlockSize + i) % fsBlockSize = 0 + i := by
    simp only [fsBlockSize] at *
    omega
  rw [Image.byteAt, hdiv, hmod]

theorem blocks_eq (count : Nat) :
    ((List.range count).flatMap fun k =>
        (img.data (img.dataBlocks inode k)).load 0 fsBlockSize) =
      (img.byteAt inode).load 0 (count * fsBlockSize) := by
  induction count with
  | zero => rfl
  | succ count ih =>
      rw [List.range_succ, List.flatMap_append, ih, List.flatMap_singleton,
        block_eq, Nat.succ_mul, Memory.load_add, Nat.zero_add]

theorem blockContent_piece {offset count : Nat}
    (hfits : offset + count ≤ 1023 * fsBlockSize) :
    ((img.blockContent inode).drop offset).take count =
      (img.byteAt inode).load offset count := by
  have hcount : min count (1023 * fsBlockSize - offset) = count := by omega
  rw [Image.blockContent, blocks_eq, Memory.load_drop_take, hcount,
    Nat.zero_add]

variable {img inode}

/-- A byte of a piece is in a block the piece touches, and every block it
touches holds one of its bytes. -/
theorem blocks_touched {offset count : Nat} (hcount : 0 < count)
    (p : Nat → Prop) :
    (∀ i < count, p ((offset + i) / fsBlockSize)) ↔
      ∀ k, offset / fsBlockSize ≤ k →
        k ≤ (offset + count - 1) / fsBlockSize → p k := by
  constructor
  · intro hbytes k hfirst hlast
    -- the first byte of block `k` that is not before the piece
    have hin := hbytes (max offset (k * fsBlockSize) - offset)
    have hblock : (offset + (max offset (k * fsBlockSize) - offset)) /
        fsBlockSize = k := by
      simp only [fsBlockSize] at *
      omega
    rw [hblock] at hin
    apply hin
    simp only [fsBlockSize] at *
    omega
  · intro hblocks i hi
    apply hblocks
    · exact Nat.div_le_div_right (by omega)
    · exact Nat.div_le_div_right (by omega)

/-- Some block that a piece touches does not exist. -/
def Image.TouchesBadBlock (img : Image) (inode offset count : Nat) : Prop :=
  0 < count ∧ ∃ k, offset / fsBlockSize ≤ k ∧
    k ≤ (offset + count - 1) / fsBlockSize ∧
      img.numDataBlocks ≤ img.dataBlocks inode k

theorem readable_eq_self_iff_blocks (offset count : Nat) :
    img.readable inode offset count = count ↔
      ¬ img.TouchesBadBlock inode offset count := by
  rcases Nat.eq_zero_or_pos count with rfl | hpos
  · simp [readable_zero, Image.TouchesBadBlock]
  · rw [readable_eq_self_iff, blocks_touched hpos (fun k =>
      img.dataBlocks inode k < img.numDataBlocks), Image.TouchesBadBlock]
    simp [hpos]

/-- `read_data` on any image whose files fit their block tables: which calls
fail, and what the others return and leave in the buffer. -/
theorem readData_meets_blocks (mem : Memory UInt8) (buf : Nat)
    {offset length : Nat}
    (hsize : ∀ inode < img.numInodes,
      img.fileLength inode ≤ 1023 * fsBlockSize)
    (hlength : length < 2 ^ 31) :
    let n := min length (img.fileLength inode - offset)
    let result := img.readData inode offset length
    let after := mem.storeList buf result.2
    (result.1 = -1 ↔
      img.numInodes ≤ inode ∨ img.TouchesBadBlock inode offset n) ∧
    (result.1 ≠ -1 → result.1 = n ∧
      after.load buf n = ((img.blockContent inode).drop offset).take n ∧
      ∀ addr, addr < buf ∨ buf + n ≤ addr → after addr = mem addr) := by
  intro n result after
  by_cases hinode : inode < img.numInodes
  · have hnot : ¬ img.numInodes ≤ inode := Nat.not_le_of_lt hinode
    have hcut : result = (if img.readable inode offset n = n then (n : Int)
        else -1, (img.byteAt inode).load offset
          (img.readable inode offset n)) :=
      readData_cut hinode (hsize inode hinode) hlength
    have hblocks := @readable_eq_self_iff_blocks img inode offset n
    by_cases hall : img.readable inode offset n = n
    · rw [if_pos hall, hall] at hcut
      have hreturn : result.1 = n := congrArg Prod.fst hcut
      have hbytes : result.2 = (img.byteAt inode).load offset n :=
        congrArg Prod.snd hcut
      have hcount : result.2.length = n := by
        rw [hbytes, Memory.load_length]
      have hpiece : ((img.blockContent inode).drop offset).take n =
          (img.byteAt inode).load offset n := by
        rcases Nat.eq_zero_or_pos n with hzero | hpos
        · simp [hzero, Memory.load]
        · apply blockContent_piece
          have := hsize inode hinode
          omega
      refine ⟨?_, fun _ => ⟨hreturn, ?_, ?_⟩⟩
      · have hne : result.1 ≠ -1 := by omega
        simp [hne, hnot, hblocks.mp hall]
      · have hback := mem.load_storeList buf result.2
        rw [hcount] at hback
        rw [hpiece, ← hbytes]
        exact hback
      · intro addr houtside
        exact mem.storeList_of_outside (by rwa [hcount])
    · rw [if_neg hall] at hcut
      have hreturn : result.1 = -1 := congrArg Prod.fst hcut
      have hbad := Classical.not_not.mp ((not_congr hblocks).mp hall)
      exact ⟨⟨fun _ => Or.inr hbad, fun _ => hreturn⟩,
        fun hne => absurd hreturn hne⟩
  · have hfail : result = (-1, []) := if_pos (Nat.le_of_not_lt hinode)
    have hreturn : result.1 = -1 := congrArg Prod.fst hfail
    exact ⟨⟨fun _ => Or.inl (Nat.le_of_not_lt hinode), fun _ => hreturn⟩,
      fun hne => absurd hreturn hne⟩

/-- A file of 4098 bytes over blocks 1 and 0. -/
def scatteredImage : Image where
  numDirectoryEntries := 0
  numInodes := 1
  numDataBlocks := 2
  directoryEntries := fun _ =>
    { fileName := fun _ => 0, fileType := 2, inodeNum := 0
      reserved := fun _ => 0 }
  fileLength := fun _ => 4098
  dataBlocks := fun _ k => 1 - k
  data := fun block i => UInt8.ofNat (block * 100 + i % 100)

/-- A read across the border of its two blocks. -/
theorem readData_across_blocks :
    let result := scatteredImage.readData 0 4095 9
    let after := Memory.storeList (fun _ => 7) 5 result.2
    result.1 = 3 ∧
      after.load 5 3 = ((scatteredImage.blockContent 0).drop 4095).take 3 ∧
      after 8 = 7 := by
  intro result after
  have hspec := @readData_meets_blocks scatteredImage 0 (fun _ => 7) 5 4095 9
    (by decide) (by decide)
  have hn : min 9 (scatteredImage.fileLength 0 - 4095) = 3 := by decide
  simp only [hn] at hspec
  obtain ⟨hreturn, hbytes, houtside⟩ := hspec.2 (by decide +kernel)
  exact ⟨hreturn, hbytes, houtside 8 (Or.inr (by decide))⟩

end Blocks

end PsychOS
