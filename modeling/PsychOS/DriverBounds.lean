/-
How far the filesystem driver goes (`fs/ece391_fs.c`) on images and requests it
does not expect: where a read ends, which entries of the tables in the image
are looked at, and that the loops end.
-/
import PsychOS.Descriptors
import PsychOS.FileContents

namespace PsychOS

section EndOfFile

variable {img : Image} {inode offset length : Nat}

/-- The read returns no more than the file has left and stores no byte from
beyond its end. -/
structure Image.StopsAtEnd (img : Image) (inode offset length : Nat) :
    Prop where
  ret_le : (img.readData inode offset length).1 ≤
    ((img.fileLength inode - offset : Nat) : Int)
  stored_le : (img.readData inode offset length).2.length ≤
    img.fileLength inode - offset

/-- The sum of the offset and the length wraps around to a number that does
not exceed the length of the file, and the file does not fill its last
block. -/
def Image.EndMissed (img : Image) (inode offset length : Nat) : Prop :=
  inode < img.numInodes ∧ offset < img.fileLength inode ∧
    2 ^ 32 ≤ length + offset ∧
    length + offset - 2 ^ 32 ≤ img.fileLength inode ∧
    img.fileLength inode % fsBlockSize ≠ 0

theorem toInt32_of_lt {n : Nat} (hn : n < 2 ^ 31) : toInt32 n = n := by
  have hmod : n % 2 ^ 32 = n := Nat.mod_eq_of_lt (by omega)
  simp only [toInt32, hmod, hn, ↓reduceIte]

/-- What is read of a file whose blocks all exist. -/
theorem readData_of_blocks (hinode : inode < img.numInodes)
    (hsize : img.fileLength inode ≤ 1023 * fsBlockSize)
    (hblocks : ∀ i, i * fsBlockSize < img.fileLength inode →
      img.dataBlocks inode i < img.numDataBlocks)
    (hoffset : offset < img.fileLength inode) (hlength : length < 2 ^ 32) :
    img.readData inode offset length =
      ((img.wanted inode offset length : Int),
        (img.byteAt inode).load offset (img.wanted inode offset length)) := by
  have hreach := reach_cases img inode offset length
  have hwanted : offset + img.wanted inode offset length ≤
      img.blocksEnd inode := by
    rw [Image.wanted]
    simp only [Image.blocksEnd, fsBlockSize] at *
    split <;> omega
  have hall : img.readable inode offset (img.wanted inode offset length) =
      img.wanted inode offset length := by
    apply readable_eq_self
    intro i hi
    apply hblocks
    simp only [Image.blocksEnd, fsBlockSize] at *
    omega
  have hsmall : img.wanted inode offset length < 2 ^ 31 := by
    simp only [Image.blocksEnd, fsBlockSize] at *
    omega
  rw [readData_spec hinode (by simp only [fsBlockSize] at *; omega) hoffset
    hlength, hall, if_pos rfl, toInt32_of_lt hsmall]

/-- How the number of bytes wanted compares with what is left of the file. -/
theorem wanted_le_left_iff
    (hsize : img.fileLength inode ≤ 1023 * fsBlockSize)
    (hinode : inode < img.numInodes)
    (hoffset : offset < img.fileLength inode) (hlength : length < 2 ^ 32) :
    img.wanted inode offset length ≤ img.fileLength inode - offset ↔
      ¬ img.EndMissed inode offset length := by
  have hreach := reach_cases img inode offset length
  simp only [Image.wanted, Image.EndMissed, Image.blocksEnd,
    fsBlockSize] at *
  split <;> omega

/-- A read ends with the file for every offset and every length, unless the sum
of the two wraps around below the end of a file with a part of a block at its
end. -/
theorem read_stops_at_end_iff
    (hsize : ∀ inode < img.numInodes,
      img.fileLength inode ≤ 1023 * fsBlockSize)
    (hblocks : ∀ inode < img.numInodes, ∀ i,
      i * fsBlockSize < img.fileLength inode →
        img.dataBlocks inode i < img.numDataBlocks)
    (hlength : length < 2 ^ 32) :
    img.StopsAtEnd inode offset length ↔
      ¬ img.EndMissed inode offset length := by
  by_cases hinode : inode < img.numInodes
  · by_cases hoffset : offset < img.fileLength inode
    · have hread := readData_of_blocks hinode (hsize inode hinode)
        (hblocks inode hinode) hoffset hlength
      have hleft := wanted_le_left_iff (hsize inode hinode) hinode hoffset
        hlength
      rw [← hleft]
      constructor
      · intro hstops
        have hstored := hstops.stored_le
        rwa [hread, Memory.load_length] at hstored
      · intro hle
        constructor
        · rw [hread]
          exact Int.ofNat_le.mpr hle
        · rw [hread, Memory.load_length]
          exact hle
    · have hread : img.readData inode offset length = (0, []) := by
        rw [Image.readData, if_neg (Nat.not_le_of_lt hinode),
          if_pos (Nat.le_of_not_lt hoffset)]
      refine iff_of_true ⟨?_, ?_⟩ fun hmissed => hoffset hmissed.2.1
      · rw [hread]
        exact Int.natCast_nonneg _
      · rw [hread]
        exact Nat.zero_le _
  · have hread : img.readData inode offset length = (-1, []) :=
      if_pos (Nat.le_of_not_lt hinode)
    refine iff_of_true ⟨?_, ?_⟩ fun hmissed => hinode hmissed.1
    · rw [hread]
      exact Int.le_trans (by decide) (Int.natCast_nonneg _)
    · rw [hread]
      exact Nat.zero_le _

/-- One file of 28 bytes in one block. -/
def shortFileImage : Image where
  numDirectoryEntries := 1
  numInodes := 1
  numDataBlocks := 1
  directoryEntries := fun _ => ⟨cString [102], 2, 0, fun _ => 0⟩
  fileLength := fun _ => 28
  dataBlocks := fun _ _ => 0
  data := fun _ i => UInt8.ofNat i

theorem shortFileImage_fits :
    (∀ inode < shortFileImage.numInodes,
        shortFileImage.fileLength inode ≤ 1023 * fsBlockSize) ∧
      ∀ inode < shortFileImage.numInodes, ∀ i,
        i * fsBlockSize < shortFileImage.fileLength inode →
          shortFileImage.dataBlocks inode i < shortFileImage.numDataBlocks :=
  ⟨by decide, fun _ _ _ _ => Nat.one_pos⟩

/-- A negative count from the start of the file is cut to its length. -/
theorem shortFile_read_stops :
    shortFileImage.StopsAtEnd 0 0 (toUint32 (-1)) :=
  (read_stops_at_end_iff shortFileImage_fits.1 shortFileImage_fits.2
    (by decide)).mpr fun hmissed => absurd hmissed.2.2.1 (by decide)

/-- The same count after the first byte reads the rest of the block. -/
theorem shortFile_read_overruns :
    (shortFileImage.readData 0 1 (2 ^ 32 - 1)).1 = 4095 ∧
      (fileRead shortFileImage ⟨some .file, 1, 1, 0⟩ (-1)).2.1 = 4095 ∧
      ¬ shortFileImage.StopsAtEnd 0 1 (2 ^ 32 - 1) := by
  have hread := @readData_of_blocks shortFileImage 0 1 (2 ^ 32 - 1) Nat.one_pos
    (shortFileImage_fits.1 0 Nat.one_pos) (shortFileImage_fits.2 0 Nat.one_pos)
    (by decide) (by decide)
  have hwanted : shortFileImage.wanted 0 1 (2 ^ 32 - 1) = 4095 := by decide
  rw [hwanted] at hread
  refine ⟨by rw [hread]; rfl, ?_, ?_⟩
  · have hunsigned : toUint32 (-1) = 2 ^ 32 - 1 := rfl
    simp only [fileRead, hunsigned, hread]
    rfl
  · intro hstops
    have hret := hstops.ret_le
    rw [hread] at hret
    exact absurd hret (by decide)

end EndOfFile

/-- The tables of an image and the places where the driver indexes them. -/
inductive TableAccess where
  | directoryEntry (i : Nat)
  | inode (i : Nat)
  | blockEntry (inode i : Nat)
  | dataBlock (i : Nat)
deriving DecidableEq, Repr

/-- The boot block has room for 63 entries and an inode for 1023 block numbers;
the other two tables are as long as the boot block says. -/
def TableAccess.InBounds (img : Image) : TableAccess → Prop
  | .directoryEntry i => i < 63
  | .inode i => i < img.numInodes
  | .blockEntry _ i => i < 1023
  | .dataBlock i => i < img.numDataBlocks

namespace Image

variable (img : Image)

/-- The loop of `read_dentry_by_name` from entry `i` on, with the accesses it
makes; `none` if the turns do not suffice. -/
def scanEntries (fname : Memory UInt8) :
    Nat → Nat → Option (Option Dentry × List TableAccess)
  | 0, i => if i < img.numDirectoryEntries then none else some (none, [])
  | fuel + 1, i =>
      if i < img.numDirectoryEntries then
        if strncmp fname (img.directoryEntries i).fileName maxFileNameLength =
            0 then
          some (some (copyDentry (img.directoryEntries i)),
            [.directoryEntry i])
        else (scanEntries fname fuel (i + 1)).map fun (found, accesses) =>
          (found, .directoryEntry i :: accesses)
      else some (none, [])

/-- `read_dentry_by_index` with the accesses it makes. -/
def readEntry (index : Nat) : Option Dentry × List TableAccess :=
  if index ≥ img.numDirectoryEntries then (none, [])
  else (some (copyDentry (img.directoryEntries index)),
    [.directoryEntry index])

/-- The loop of `read_data` with the accesses it makes; `none` if the turns do
not suffice.  A data block is only looked at after `read_block` has checked its
number. -/
def readTurns (inode length : Nat) : Nat → Nat → Nat → Nat → List UInt8 →
    Option ((Int × List UInt8) × List TableAccess)
  | 0, _, filePos, _, written =>
      if written.length < length ∧ filePos < img.fileLength inode then none
      else some ((toInt32 written.length, written), [])
  | fuel + 1, blockNum, filePos, blockPos, written =>
      if written.length < length ∧ filePos < img.fileLength inode then
        let numBytesToCopy :=
          if fsBlockSize - blockPos > length - written.length then
            length - written.length
          else fsBlockSize - blockPos
        match img.readBlock (img.dataBlocks inode blockNum) blockPos
            numBytesToCopy with
        | none => some ((-1, written), [.blockEntry inode blockNum])
        | some bytes =>
            let blockPos := blockPos + bytes.length
            let next := if blockPos ≥ fsBlockSize then
              (blockNum + 1, blockPos - fsBlockSize) else (blockNum, blockPos)
            (readTurns inode length fuel next.1
              ((filePos + bytes.length) % 2 ^ 32) next.2
              (written ++ bytes)).map fun (result, accesses) =>
                (result, .blockEntry inode blockNum ::
                  .dataBlock (img.dataBlocks inode blockNum) :: accesses)
      else some ((toInt32 written.length, written), [])

/-- `read_data` with the accesses it makes; `none` if `length` turns do not
suffice. -/
def readWithAccesses (inode offset length : Nat) :
    Option ((Int × List UInt8) × List TableAccess) :=
  if inode ≥ img.numInodes then some ((-1, []), [])
  else if offset ≥ img.fileLength inode then some ((0, []), [.inode inode])
  else
    let length :=
      if (length + offset) % 2 ^ 32 > img.fileLength inode then
        img.fileLength inode - offset
      else length
    (img.readTurns inode length length (offset / fsBlockSize) offset
      (offset % fsBlockSize) []).map fun (result, accesses) =>
        (result, .inode inode :: accesses)

end Image

section Scan

variable {img : Image} {fname : Memory UInt8}

/-- From entry `i` on, the scan looks at the entries up to the first that
matches.  The induction is on the entries left. -/
theorem scanEntries_spec (i fuel : Nat)
    (hfuel : img.numDirectoryEntries = i + fuel) :
    ∃ accesses, img.scanEntries fname fuel i =
        some (((List.range' i fuel).find? fun j =>
          strncmp fname (img.directoryEntries j).fileName
            maxFileNameLength == 0).map
              fun j => Image.copyDentry (img.directoryEntries j), accesses) ∧
      ∀ access, access ∈ accesses ↔ ∃ k, access = .directoryEntry k ∧
        i ≤ k ∧ k < img.numDirectoryEntries ∧
        ∀ j, i ≤ j → j < k → strncmp fname
          (img.directoryEntries j).fileName maxFileNameLength ≠ 0 := by
  induction fuel generalizing i with
  | zero =>
      refine ⟨[], ?_, ?_⟩
      · rw [Image.scanEntries, if_neg (by omega)]
        rfl
      · intro access
        refine iff_of_false List.not_mem_nil ?_
        rintro ⟨k, -, hlo, hhi, -⟩
        omega
  | succ fuel ih =>
      have hmore : i < img.numDirectoryEntries := by omega
      rw [Image.scanEntries, if_pos hmore, List.range'_succ]
      by_cases hmatch : strncmp fname (img.directoryEntries i).fileName
          maxFileNameLength = 0
      · refine ⟨[.directoryEntry i], ?_, ?_⟩
        · rw [if_pos hmatch, List.find?_cons_of_pos (by simpa using hmatch)]
          rfl
        · intro access
          rw [List.mem_singleton]
          constructor
          · rintro rfl
            exact ⟨i, rfl, Nat.le_refl i, hmore, fun j hlo hhi => by omega⟩
          · rintro ⟨k, rfl, hlo, -, hbefore⟩
            have hle : ¬ i < k := fun hlt =>
              hbefore i (Nat.le_refl i) hlt hmatch
            congr 1
            omega
      · obtain ⟨accesses, hscan, hmem⟩ := ih (i + 1) (by omega)
        refine ⟨.directoryEntry i :: accesses, ?_, ?_⟩
        · rw [if_neg hmatch, hscan,
            List.find?_cons_of_neg (by simpa using hmatch)]
          rfl
        · intro access
          rw [List.mem_cons, hmem]
          constructor
          · rintro (rfl | ⟨k, rfl, hlo, hhi, hbefore⟩)
            · exact ⟨i, rfl, Nat.le_refl i, hmore, fun j hlo hhi => by omega⟩
            · refine ⟨k, rfl, by omega, hhi, ?_⟩
              intro j hj hjk
              rcases Nat.eq_or_lt_of_le hj with rfl | hlt
              · exact hmatch
              · exact hbefore j hlt hjk
          · rintro ⟨k, rfl, hlo, hhi, hbefore⟩
            rcases Nat.eq_or_lt_of_le hlo with rfl | hlt
            · exact Or.inl rfl
            · exact Or.inr ⟨k, rfl, hlt, hhi, fun j hj => hbefore j (by omega)⟩

/-- The scan for a name ends with the result of `read_dentry_by_name`, and it
stays in the table exactly if there are no more than 63 entries or one of the
first 63 has the name. -/
theorem scanEntries_in_bounds_iff (img : Image) (fname : Memory UInt8) :
    ∃ accesses, img.scanEntries fname img.numDirectoryEntries 0 =
        some (img.readDentryByName fname, accesses) ∧
      ((∀ access ∈ accesses, access.InBounds img) ↔
        img.numDirectoryEntries ≤ 63 ∨ ∃ i < 63, strncmp fname
          (img.directoryEntries i).fileName maxFileNameLength = 0) := by
  obtain ⟨accesses, hscan, hmem⟩ := @scanEntries_spec img fname 0
    img.numDirectoryEntries (Nat.zero_add _).symm
  refine ⟨accesses, ?_, ?_⟩
  · rw [hscan, ← List.range_eq_range']
    rfl
  · constructor
    · intro hbounds
      by_contra hnone
      obtain ⟨hmany, hnames⟩ := not_or.mp hnone
      have hlast := hbounds (.directoryEntry 63) ((hmem _).mpr
        ⟨63, rfl, Nat.zero_le _, by omega,
          fun j _ hj hmatch => hnames ⟨j, hj, hmatch⟩⟩)
      exact Nat.lt_irrefl 63 hlast
    · intro hcases access haccess
      obtain ⟨k, rfl, -, hk, hbefore⟩ := (hmem _).mp haccess
      rcases hcases with hfew | ⟨i, hi, hmatch⟩
      · exact Nat.lt_of_lt_of_le hk hfew
      · have hle : ¬ i < k := fun hlt => hbefore i (Nat.zero_le i) hlt hmatch
        exact Nat.lt_of_le_of_lt (Nat.le_of_not_lt hle) hi

theorem readEntry_in_bounds_iff (img : Image) (index : Nat) :
    (img.readEntry index).1 = img.readDentryByIndex index ∧
      ((∀ access ∈ (img.readEntry index).2, access.InBounds img) ↔
        index < 63 ∨ img.numDirectoryEntries ≤ index) := by
  rw [Image.readEntry, Image.readDentryByIndex]
  by_cases hbeyond : index ≥ img.numDirectoryEntries
  · rw [if_pos hbeyond, if_pos hbeyond]
    exact ⟨rfl, iff_of_true (fun _ hmem => absurd hmem List.not_mem_nil)
      (Or.inr hbeyond)⟩
  · rw [if_neg hbeyond, if_neg hbeyond]
    refine ⟨rfl, ?_⟩
    constructor
    · intro hbounds
      exact Or.inl (hbounds _ (List.mem_singleton_self _))
    · intro hcases access haccess
      rw [List.mem_singleton.mp haccess]
      exact hcases.resolve_right hbeyond

end Scan

section Turns

variable {img : Image} {inode : Nat}

theorem readBlock_length {blockIndex offset length : Nat}
    {bytes : List UInt8}
    (hread : img.readBlock blockIndex offset length = some bytes) :
    blockIndex < img.numDataBlocks ∧
      bytes.length = min length (fsBlockSize - offset) := by
  rw [Image.readBlock] at hread
  split at hread
  · contradiction
  · split at hread
    · contradiction
    · rename_i hblock _
      refine ⟨Nat.lt_of_not_le hblock, ?_⟩
      rw [← Option.some.inj hread, Memory.load_length]
      split <;> omega

/-- Every turn copies at least one byte, so the loop ends within as many turns
as there are bytes to copy, whatever the image holds. -/
theorem readTurns_ends (length fuel blockNum filePos : Nat) {blockPos : Nat}
    {written : List UInt8} (hpos : blockPos < fsBlockSize)
    (hfuel : length - written.length ≤ fuel) :
    ∃ accesses, img.readTurns inode length fuel blockNum filePos blockPos
        written =
      some (img.readDataLoop inode length fuel blockNum filePos blockPos
        written, accesses) := by
  induction fuel generalizing blockNum filePos blockPos written with
  | zero =>
      refine ⟨[], ?_⟩
      rw [Image.readTurns, if_neg (by omega), Image.readDataLoop]
  | succ fuel ih =>
      rw [Image.readTurns, Image.readDataLoop]
      by_cases hmore : written.length < length ∧
          filePos < img.fileLength inode
      · rw [if_pos hmore, if_pos hmore]
        generalize hcount : (if fsBlockSize - blockPos > length -
          written.length then length - written.length
          else fsBlockSize - blockPos) = count
        dsimp only
        cases hblock : img.readBlock (img.dataBlocks inode blockNum) blockPos
            count with
        | none => exact ⟨_, rfl⟩
        | some bytes =>
            have hbytes := (readBlock_length hblock).2
            have hpositive : 0 < bytes.length := by
              rw [hbytes, ← hcount]
              split <;> omega
            have hnext : (if blockPos + bytes.length ≥ fsBlockSize then
                (blockNum + 1, blockPos + bytes.length - fsBlockSize)
                else (blockNum, blockPos + bytes.length)).2 <
                fsBlockSize := by
              split
              · simp only [fsBlockSize] at *
                omega
              · omega
            have hless : length - (written ++ bytes).length ≤ fuel := by
              rw [List.length_append]
              omega
            obtain ⟨accesses, hrest⟩ := ih
              (if blockPos + bytes.length ≥ fsBlockSize then
                (blockNum + 1, blockPos + bytes.length - fsBlockSize)
                else (blockNum, blockPos + bytes.length)).1
              ((filePos + bytes.length) % 2 ^ 32) hnext hless
            dsimp only
            rw [hrest, Option.map_some]
            exact ⟨_, rfl⟩
      · rw [if_neg hmore, if_neg hmore]
        exact ⟨[], rfl⟩

/-- The bytes a turn asks `read_block` for. -/
def turnCount (length blockPos : Nat) (written : List UInt8) : Nat :=
  if fsBlockSize - blockPos > length - written.length then
    length - written.length
  else fsBlockSize - blockPos

/-- The block number and the position in the block after a turn. -/
def turnPosition (blockNum blockPos : Nat) : Nat × Nat :=
  if blockPos ≥ fsBlockSize then (blockNum + 1, blockPos - fsBlockSize)
  else (blockNum, blockPos)

/-- What one turn of the loop can do: stop, fail on a block that cannot be
read, or copy a piece of a block and go on. -/
theorem readTurns_cases {length fuel blockNum filePos blockPos : Nat}
    {written : List UInt8} {result : Int × List UInt8}
    {accesses : List TableAccess}
    (hturns : img.readTurns inode length fuel blockNum filePos blockPos
      written = some (result, accesses)) :
    ¬ (written.length < length ∧ filePos < img.fileLength inode) ∧
        accesses = [] ∨
      (written.length < length ∧ filePos < img.fileLength inode) ∧
        (img.readBlock (img.dataBlocks inode blockNum) blockPos
            (turnCount length blockPos written) = none ∧
          result.1 = -1 ∧ accesses = [.blockEntry inode blockNum] ∨
        ∃ left bytes later, fuel = left + 1 ∧
          img.readBlock (img.dataBlocks inode blockNum) blockPos
            (turnCount length blockPos written) = some bytes ∧
          img.readTurns inode length left
            (turnPosition blockNum (blockPos + bytes.length)).1
            ((filePos + bytes.length) % 2 ^ 32)
            (turnPosition blockNum (blockPos + bytes.length)).2
            (written ++ bytes) = some (result, later) ∧
          accesses = .blockEntry inode blockNum ::
            .dataBlock (img.dataBlocks inode blockNum) :: later) := by
  cases fuel with
  | zero =>
      rw [Image.readTurns] at hturns
      split at hturns
      · contradiction
      · next hstop =>
          obtain ⟨-, rfl⟩ := Prod.mk.inj (Option.some.inj hturns)
          exact Or.inl ⟨hstop, rfl⟩
  | succ left =>
      rw [Image.readTurns] at hturns
      split at hturns
      · next hmore =>
          refine Or.inr ⟨hmore, ?_⟩
          dsimp only at hturns
          split at hturns
          · next hblock =>
              obtain ⟨rfl, rfl⟩ := Prod.mk.inj (Option.some.inj hturns)
              exact Or.inl ⟨hblock, rfl, rfl⟩
          · next bytes hblock =>
              obtain ⟨⟨_, later⟩, hrest, heq⟩ :=
                Option.map_eq_some_iff.mp hturns
              obtain ⟨rfl, rfl⟩ := Prod.mk.inj heq
              exact Or.inr ⟨left, bytes, later, rfl, hblock, hrest, rfl⟩
      · next hstop =>
          obtain ⟨-, rfl⟩ := Prod.mk.inj (Option.some.inj hturns)
          exact Or.inl ⟨hstop, rfl⟩

/-- What the loop looks at, whatever the image holds: the file's block numbers
and data blocks that exist, and after a block that does not exist nothing. -/
theorem readTurns_checks {length fuel blockNum filePos blockPos : Nat}
    {written : List UInt8} {result : Int × List UInt8}
    {accesses : List TableAccess}
    (hturns : img.readTurns inode length fuel blockNum filePos blockPos
      written = some (result, accesses)) :
    (∀ i, .directoryEntry i ∉ accesses ∧ .inode i ∉ accesses) ∧
      (∀ i, .dataBlock i ∈ accesses → i < img.numDataBlocks) ∧
      ∀ other k, .blockEntry other k ∈ accesses → other = inode ∧
        (img.numDataBlocks ≤ img.dataBlocks inode k → result.1 = -1) := by
  induction fuel using Nat.strong_induction_on generalizing blockNum filePos
    blockPos written accesses with
  | h fuel ih =>
      rcases readTurns_cases hturns with ⟨-, rfl⟩ |
        ⟨-, ⟨-, hfailed, rfl⟩ | ⟨left, bytes, later, rfl, hblock, hrest, rfl⟩⟩
      · simp
      · simp [hfailed]
      · obtain ⟨hothers, hdata, hentries⟩ := ih left (Nat.lt_succ_self _) hrest
        have hexists := (readBlock_length hblock).1
        refine ⟨?_, ?_, ?_⟩
        · intro i
          simpa using hothers i
        · intro i hmem
          simp only [List.mem_cons, reduceCtorEq,
            TableAccess.dataBlock.injEq, false_or] at hmem
          rcases hmem with rfl | hmem
          · exact hexists
          · exact hdata i hmem
        · intro other k hmem
          simp only [List.mem_cons, reduceCtorEq,
            TableAccess.blockEntry.injEq, false_or] at hmem
          rcases hmem with ⟨rfl, rfl⟩ | hmem
          · exact ⟨rfl, fun hbad => absurd hexists (Nat.not_lt_of_le hbad)⟩
          · exact hentries other k hmem

/-- The loop gets to block `k` of the `count` bytes from `pos` on: a byte of the
piece is in it and all blocks before it exist. -/
def Image.Visits (img : Image) (inode pos count k : Nat) : Prop :=
  0 < count ∧ pos / fsBlockSize ≤ k ∧ k ≤ (pos + count - 1) / fsBlockSize ∧
    ∀ j, pos / fsBlockSize ≤ j → j < k →
      img.dataBlocks inode j < img.numDataBlocks

/-- A turn visits the block of its position, and what comes after it if that
block exists. -/
theorem visits_turn {pos count rest k : Nat} (hpositive : 0 < count)
    (hcount : count ≤ fsBlockSize - pos % fsBlockSize)
    (hfull : rest = 0 ∨ count = fsBlockSize - pos % fsBlockSize)
    (hblock : img.dataBlocks inode (pos / fsBlockSize) <
      img.numDataBlocks) :
    img.Visits inode pos (count + rest) k ↔
      k = pos / fsBlockSize ∨ img.Visits inode (pos + count) rest k := by
  have hstart : k = pos / fsBlockSize ∨ k ≠ pos / fsBlockSize := by omega
  rcases hstart with rfl | hne
  · refine iff_of_true ⟨by omega, Nat.le_refl _, ?_, fun j hlo hhi => ?_⟩
      (Or.inl rfl)
    · exact Nat.div_le_div_right (by omega)
    · omega
  · rcases Nat.eq_zero_or_pos rest with rfl | hrest
    · -- the piece ends in its first block
      refine iff_of_false ?_ ?_
      · rintro ⟨-, hlo, hhi, -⟩
        simp only [fsBlockSize] at *
        omega
      · rintro (heq | ⟨hpos, -⟩)
        · exact hne heq
        · exact Nat.lt_irrefl 0 hpos
    · have hnext : (pos + count) / fsBlockSize = pos / fsBlockSize + 1 := by
        simp only [fsBlockSize] at *
        omega
      have hend : pos + (count + rest) - 1 = pos + count + rest - 1 := by
        omega
      rw [Image.Visits, Image.Visits, hnext, hend]
      constructor
      · rintro ⟨-, hlo, hhi, hbefore⟩
        exact Or.inr ⟨hrest, by omega, hhi,
          fun j hj => hbefore j (by omega)⟩
      · rintro (heq | ⟨-, hlo, hhi, hbefore⟩)
        · exact absurd heq hne
        · refine ⟨by omega, by omega, hhi, fun j hj hjk => ?_⟩
          rcases Nat.eq_or_lt_of_le hj with rfl | hlt
          · exact hblock
          · exact hbefore j hlt hjk

/-- The loop goes no further than a block that does not exist. -/
theorem visits_bad {pos count k : Nat} (hcount : 0 < count)
    (hblock : ¬ img.dataBlocks inode (pos / fsBlockSize) <
      img.numDataBlocks) :
    img.Visits inode pos count k ↔ k = pos / fsBlockSize := by
  constructor
  · rintro ⟨-, hlo, -, hbefore⟩
    by_contra hne
    exact hblock (hbefore _ (Nat.le_refl _) (by omega))
  · rintro rfl
    exact ⟨hcount, Nat.le_refl _, Nat.div_le_div_right (by omega),
      fun j hlo hhi => by omega⟩

/-- The block numbers the loop looks at are those of the blocks it visits. -/
theorem readTurns_visits (hsize : img.fileLength inode < 2 ^ 32)
    {offset length fuel : Nat} {written : List UInt8}
    {result : Int × List UInt8} {accesses : List TableAccess}
    (hoffset : offset < img.fileLength inode) (hlength : length < 2 ^ 32)
    (hwritten : written.length ≤ img.reach inode offset length)
    (hpos : (offset + written.length) % 2 ^ 32 < img.fileLength inode ∨
      written.length = img.reach inode offset length)
    (hturns : img.readTurns inode length fuel
      ((offset + written.length) / fsBlockSize)
      ((offset + written.length) % 2 ^ 32)
      ((offset + written.length) % fsBlockSize) written =
        some (result, accesses)) (k : Nat) :
    .blockEntry inode k ∈ accesses ↔ img.Visits inode
      (offset + written.length)
      (img.reach inode offset length - written.length) k := by
  induction fuel using Nat.strong_induction_on generalizing written
    accesses with
  | h fuel ih =>
      rcases readTurns_cases hturns with ⟨hstop, rfl⟩ | ⟨hmore, hturn⟩
      · -- nothing in reach is left
        refine iff_of_false List.not_mem_nil ?_
        rintro ⟨hcount, -⟩
        have hless : written.length < img.reach inode offset length := by
          omega
        exact hstop ⟨Nat.lt_of_lt_of_le hless (reach_le _ _),
          hpos.resolve_right (Nat.ne_of_lt hless)⟩
      · have hless : written.length < img.reach inode offset length := by
          apply Nat.lt_of_le_of_ne hwritten
          intro hdone
          rw [hdone] at hmore
          exact loop_stops hoffset hmore
        generalize hcount : turnCount length
          ((offset + written.length) % fsBlockSize) written = count at hturn
        obtain ⟨hpositive, hblockEnd, hle, hnext⟩ := turn_bounds hsize hoffset
          hlength hless hmore.2 hcount.symm
        rcases hturn with ⟨hmissing, -, rfl⟩ |
          ⟨left, bytes, later, rfl, hread, hrest, rfl⟩
        · have hblock : ¬ img.dataBlocks inode
              ((offset + written.length) / fsBlockSize) <
                img.numDataBlocks := by
            intro hblock
            rw [readBlock_eq hblock hblockEnd] at hmissing
            contradiction
          rw [visits_bad (Nat.sub_pos_of_lt hless) hblock]
          simp
        · have hblock := (readBlock_length hread).1
          have hbytes : bytes.length = count := by
            rw [(readBlock_length hread).2]
            exact Nat.min_eq_left hblockEnd
          have hnextBlock := nextBlock_eq hblockEnd
          have hlater := @ih left (Nat.lt_succ_self _) (written ++ bytes) later
          simp only [List.length_append, hbytes, ← Nat.add_assoc] at hlater
          rw [turnPosition, hbytes, hnextBlock, Nat.mod_add_mod] at hrest
          have hleft : img.reach inode offset length - written.length =
              count +
                (img.reach inode offset length - (written.length + count)) := by
            omega
          have hfull : img.reach inode offset length -
              (written.length + count) = 0 ∨
              count = fsBlockSize - (offset + written.length) %
                fsBlockSize := by
            have hreach := @reach_le img inode offset length
            rw [turnCount] at hcount
            split at hcount <;> omega
          rw [hleft, visits_turn hpositive hblockEnd hfull hblock,
            ← hlater hle hnext hrest]
          simp

/-- The request reaches behind the 1023 block numbers of a file that is longer
than they allow, and no missing block stops it before. -/
def Image.LeavesBlockTable (img : Image) (inode offset length : Nat) : Prop :=
  inode < img.numInodes ∧ offset < img.fileLength inode ∧ 0 < length ∧
    1023 * fsBlockSize < img.fileLength inode ∧
    1023 * fsBlockSize < offset + length ∧
    ∀ k, offset / fsBlockSize ≤ k → k < 1023 →
      img.dataBlocks inode k < img.numDataBlocks

theorem visits_beyond_iff {offset length : Nat}
    (hinode : inode < img.numInodes)
    (hoffset : offset < img.fileLength inode) :
    (∃ k, 1023 ≤ k ∧ img.Visits inode offset
        (img.wanted inode offset length) k) ↔
      img.LeavesBlockTable inode offset length := by
  have hle := @wanted_le img inode offset length hoffset
  have hreach := reach_cases img inode offset length
  have hends : 0 < length →
      (1023 * fsBlockSize < offset + img.wanted inode offset length ↔
        1023 * fsBlockSize < img.fileLength inode ∧
          1023 * fsBlockSize < offset + length) := by
    intro hpos
    have hmod := Nat.mod_le (length + offset) (2 ^ 32)
    rw [Image.wanted]
    simp only [Image.blocksEnd, fsBlockSize] at *
    split <;> omega
  constructor
  · rintro ⟨k, hbeyond, hcount, hlo, hhi, hbefore⟩
    have hpos : 0 < length := Nat.lt_of_lt_of_le hcount hle
    have hfar : 1023 * fsBlockSize <
        offset + img.wanted inode offset length := by
      simp only [fsBlockSize] at *
      omega
    obtain ⟨hlong, hrequest⟩ := (hends hpos).mp hfar
    exact ⟨hinode, hoffset, hpos, hlong, hrequest,
      fun j hj hlt => hbefore j hj (Nat.lt_of_lt_of_le hlt hbeyond)⟩
  · rintro ⟨-, -, hpos, hlong, hrequest, hbefore⟩
    have hfar := (hends hpos).mpr ⟨hlong, hrequest⟩
    have hcount := @wanted_pos img inode offset length hoffset hpos
    refine ⟨max 1023 (offset / fsBlockSize), Nat.le_max_left _ _, hcount,
      Nat.le_max_right _ _, ?_, ?_⟩
    · simp only [fsBlockSize] at *
      omega
    · intro j hlo hhi
      exact hbefore j hlo (by omega)

/-- The loop of a request inside the file ends with the result of `read_data`
and looks at the block numbers of what the request wants. -/
theorem readTurns_spec (hsize : img.fileLength inode < 2 ^ 32)
    {offset length cut : Nat} (hoffset : offset < img.fileLength inode)
    (hlength : length < 2 ^ 32)
    (hcut : (if (length + offset) % 2 ^ 32 > img.fileLength inode then
      img.fileLength inode - offset else length) = cut) :
    ∃ accesses, img.readTurns inode cut cut (offset / fsBlockSize) offset
        (offset % fsBlockSize) [] =
        some (img.readDataLoop inode cut cut (offset / fsBlockSize) offset
          (offset % fsBlockSize) [], accesses) ∧
      ∀ k, .blockEntry inode k ∈ accesses ↔
        img.Visits inode offset (img.wanted inode offset length) k := by
  have hcutLt : cut < 2 ^ 32 := by
    rw [← hcut]
    split <;> omega
  obtain ⟨accesses, hturns⟩ := @readTurns_ends img inode cut cut
    (offset / fsBlockSize) offset (offset % fsBlockSize) []
    (Nat.mod_lt _ (by decide)) (Nat.sub_le _ _)
  have hfirst : offset % 2 ^ 32 = offset :=
    Nat.mod_eq_of_lt (Nat.lt_trans hoffset hsize)
  have hvisits := @readTurns_visits img inode hsize offset cut cut []
    (img.readDataLoop inode cut cut (offset / fsBlockSize) offset
      (offset % fsBlockSize) []) accesses hoffset hcutLt (Nat.zero_le _)
    (Or.inl (by rwa [List.length_nil, Nat.add_zero, hfirst]))
    (by rw [List.length_nil, Nat.add_zero, hfirst]; exact hturns)
  rw [List.length_nil, Nat.add_zero, Nat.sub_zero,
    ← wanted_eq_reach hcut] at hvisits
  exact ⟨accesses, hturns, hvisits⟩

/-- `read_data` ends, looks only at inodes and data blocks that exist, fails on
a block number that is too large, and stays in the block table unless the
request leads it out. -/
theorem readWithAccesses_in_bounds_iff
    (hsize : img.fileLength inode < 2 ^ 32) (offset : Nat) {length : Nat}
    (hlength : length < 2 ^ 32) :
    ∃ accesses, img.readWithAccesses inode offset length =
        some (img.readData inode offset length, accesses) ∧
      (∀ i, .inode i ∈ accesses → i < img.numInodes) ∧
      (∀ i, .dataBlock i ∈ accesses → i < img.numDataBlocks) ∧
      (∀ other k, .blockEntry other k ∈ accesses → other = inode ∧
        (img.numDataBlocks ≤ img.dataBlocks inode k →
          (img.readData inode offset length).1 = -1)) ∧
      ((∀ access ∈ accesses, access.InBounds img) ↔
        ¬ img.LeavesBlockTable inode offset length) := by
  rw [Image.readWithAccesses, Image.readData]
  by_cases hinode : inode ≥ img.numInodes
  · rw [if_pos hinode, if_pos hinode]
    refine ⟨[], rfl, by simp, by simp, by simp, iff_of_true (by simp) ?_⟩
    exact fun hleaves => Nat.not_lt_of_le hinode hleaves.1
  · rw [if_neg hinode, if_neg hinode]
    by_cases hend : offset ≥ img.fileLength inode
    · rw [if_pos hend, if_pos hend]
      refine ⟨[.inode inode], rfl, ?_, by simp, by simp, iff_of_true ?_ ?_⟩
      · intro i hmem
        obtain rfl : i = inode := by simpa using hmem
        exact Nat.lt_of_not_le hinode
      · intro access hmem
        rw [List.mem_singleton.mp hmem]
        exact Nat.lt_of_not_le hinode
      · exact fun hleaves => Nat.not_lt_of_le hend hleaves.2.1
    · rw [if_neg hend, if_neg hend]
      have hoffset : offset < img.fileLength inode := Nat.lt_of_not_le hend
      generalize hcut : (if (length + offset) % 2 ^ 32 > img.fileLength inode
        then img.fileLength inode - offset else length) = cut
      obtain ⟨accesses, hturns, hvisits⟩ :=
        readTurns_spec hsize hoffset hlength hcut
      obtain ⟨hothers, hdata, hentries⟩ := readTurns_checks hturns
      dsimp only
      rw [hturns]
      refine ⟨.inode inode :: accesses, rfl, ?_, ?_, ?_, ?_⟩
      · intro i hmem
        rcases List.mem_cons.mp hmem with heq | hlater
        · obtain rfl := TableAccess.inode.inj heq
          exact Nat.lt_of_not_le hinode
        · exact absurd hlater (hothers i).2
      · intro i hmem
        exact hdata i (by simpa using hmem)
      · intro other k hmem
        exact hentries other k (by simpa using hmem)
      · rw [← visits_beyond_iff (Nat.lt_of_not_le hinode) hoffset]
        constructor
        · rintro hbounds ⟨k, hbeyond, hvisit⟩
          have hlt : k < 1023 := hbounds _ (List.mem_cons_of_mem _
            ((hvisits k).mpr hvisit))
          omega
        · intro hinside access hmem
          rcases List.mem_cons.mp hmem with rfl | hlater
          · exact Nat.lt_of_not_le hinode
          · cases access with
            | directoryEntry i => exact absurd hlater (hothers i).1
            | inode i => exact absurd hlater (hothers i).2
            | blockEntry other k =>
                obtain ⟨rfl, -⟩ := hentries other k hlater
                exact Nat.lt_of_not_le fun hbeyond =>
                  hinside ⟨k, hbeyond, (hvisits k).mp hlater⟩
            | dataBlock i => exact hdata i hlater

end Turns

/-- On any image and for any request the three functions end, and inodes and
data blocks are only looked at if they exist.  The directory and the block
tables are left exactly by a count of entries above 63 or a file length above
1023 blocks, and then by the calls that get that far. -/
theorem driver_in_bounds_iff (img : Image)
    (hsize : ∀ inode, img.fileLength inode < 2 ^ 32) (fname : Memory UInt8)
    (index inode offset : Nat) {length : Nat} (hlength : length < 2 ^ 32) :
    (∃ accesses, img.scanEntries fname img.numDirectoryEntries 0 =
        some (img.readDentryByName fname, accesses) ∧
      ((∀ access ∈ accesses, access.InBounds img) ↔
        img.numDirectoryEntries ≤ 63 ∨ ∃ i < 63, strncmp fname
          (img.directoryEntries i).fileName maxFileNameLength = 0)) ∧
    ((img.readEntry index).1 = img.readDentryByIndex index ∧
      (img.numDirectoryEntries ≤ index →
        img.readDentryByIndex index = none) ∧
      ((∀ access ∈ (img.readEntry index).2, access.InBounds img) ↔
        index < 63 ∨ img.numDirectoryEntries ≤ index)) ∧
    ∃ accesses, img.readWithAccesses inode offset length =
        some (img.readData inode offset length, accesses) ∧
      (img.numInodes ≤ inode →
        img.readData inode offset length = (-1, [])) ∧
      (∀ i, .inode i ∈ accesses → i < img.numInodes) ∧
      (∀ i, .dataBlock i ∈ accesses → i < img.numDataBlocks) ∧
      (∀ other k, .blockEntry other k ∈ accesses → other = inode ∧
        (img.numDataBlocks ≤ img.dataBlocks inode k →
          (img.readData inode offset length).1 = -1)) ∧
      ((∀ access ∈ accesses, access.InBounds img) ↔
        ¬ img.LeavesBlockTable inode offset length) := by
  obtain ⟨hentry, hindex⟩ := readEntry_in_bounds_iff img index
  obtain ⟨accesses, hread, hrest⟩ :=
    readWithAccesses_in_bounds_iff (hsize inode) offset hlength
  exact ⟨scanEntries_in_bounds_iff img fname,
    ⟨hentry, fun hbeyond => if_pos hbeyond, hindex⟩,
    accesses, hread, fun hbeyond => if_pos hbeyond, hrest⟩

/-- One entry too many for the boot block, and one file with one byte too many
for its block table. -/
def oversizedImage : Image where
  numDirectoryEntries := 64
  numInodes := 1
  numDataBlocks := 1
  directoryEntries := fun _ => ⟨cString [102], 2, 0, fun _ => 0⟩
  fileLength := fun _ => 1023 * fsBlockSize + 1
  dataBlocks := fun _ _ => 0
  data := fun _ _ => 0

/-- The first byte of the oversized file is still read within bounds. -/
theorem oversized_first_byte_in_bounds :
    ∃ accesses, oversizedImage.readWithAccesses 0 0 1 =
        some (oversizedImage.readData 0 0 1, accesses) ∧
      ∀ access ∈ accesses, access.InBounds oversizedImage := by
  have hsize : 1023 * fsBlockSize + 1 < 2 ^ 32 := by decide
  obtain ⟨-, -, accesses, hread, -, -, -, -, hbounds⟩ := driver_in_bounds_iff
    oversizedImage (fun _ => hsize) (cString [102]) 0 0 0
    (by decide : 1 < 2 ^ 32)
  refine ⟨accesses, hread, hbounds.mpr ?_⟩
  exact fun hleaves => absurd hleaves.2.2.2.2.1 (by decide)

/-- Entry 63 and block number 1023 are looked at. -/
theorem oversized_image_leaves_tables :
    oversizedImage.readEntry 63 =
        (some (Image.copyDentry (oversizedImage.directoryEntries 63)),
          [.directoryEntry 63]) ∧
      oversizedImage.readWithAccesses 0 (1023 * fsBlockSize) 1 =
        some ((1, [0]), [.inode 0, .blockEntry 0 1023, .dataBlock 0]) ∧
      ¬ TableAccess.InBounds oversizedImage (.directoryEntry 63) ∧
      ¬ TableAccess.InBounds oversizedImage (.blockEntry 0 1023) :=
  ⟨rfl, by decide, Nat.lt_irrefl 63, Nat.lt_irrefl 1023⟩

end PsychOS
