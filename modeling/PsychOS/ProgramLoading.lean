/-
Loading a program (`load_program_into_slot`).  The file is copied into the page
of the slot and its header is looked at there, where bytes of the last program
in that slot may follow a file that is shorter than a header.
-/
import PsychOS.DirectoryLookup
import PsychOS.FailedExecute

namespace PsychOS

/-- The most the loader copies. -/
abbrev programLimit : Nat := processPageSize - processLinkOffset

/-- The content of the file with the name, if all the loader copies of it can
be read. -/
def Image.programFile (img : Image) (filename : Memory UInt8) :
    Option (List UInt8) :=
  (img.readDentryByName filename).bind fun dentry =>
    let count := min programLimit (img.fileLength dentry.inodeNum)
    if dentry.inodeNum < img.numInodes ∧
        img.readable dentry.inodeNum 0 count = count then
      some (img.content dentry.inodeNum)
    else none

/-- A file that starts like a program and ends before its start address. -/
def Image.HeaderCut (img : Image) (filename : Memory UInt8) : Prop :=
  ∃ file, img.programFile filename = some file ∧
    elfMagicHeader <+: file ∧ elfMagicHeaderLen < file.length ∧
    file.length < elfEntrypointOffset + 4

/-- What is loaded depends on the file only, whatever the page held before, and
a start address is taken from the file. -/
structure Image.LoadsFromFile (img : Image) (filename : Memory UInt8)
    (slot : Nat) : Prop where
  same : ∀ pages other : Memory UInt8,
    (loadProgramIntoSlot img pages filename slot).2 =
      (loadProgramIntoSlot img other filename slot).2
  entry : ∀ pages : Memory UInt8,
    (loadProgramIntoSlot img pages filename slot).2 ≠ 0 →
      ∃ file, img.programFile filename = some file ∧
        elfMagicHeader <+: file ∧ elfEntrypointOffset + 4 ≤ file.length ∧
        (loadProgramIntoSlot img pages filename slot).2 =
          littleEndian ((file.drop elfEntrypointOffset).take 4)

section Reading

variable {img : Image} {filename : Memory UInt8}

theorem readFileByName_of_programFile {file : List UInt8}
    (hsize : ∀ inode < img.numInodes,
      img.fileLength inode ≤ 1023 * fsBlockSize)
    (hfile : img.programFile filename = some file) :
    img.readFileByName filename programLimit =
      (((file.take programLimit).length : Int), file.take programLimit) := by
  obtain ⟨dentry, hname, hread⟩ := Option.bind_eq_some_iff.mp hfile
  dsimp only at hread
  split at hread
  · next hall =>
      obtain rfl := Option.some.inj hread
      have htake : (img.content dentry.inodeNum).take programLimit =
          (img.byteAt dentry.inodeNum).load 0
            (min programLimit (img.fileLength dentry.inodeNum)) :=
        (img.byteAt dentry.inodeNum).load_drop_take 0 _ 0 programLimit
      rw [Image.readFileByName, hname, htake, Memory.load_length]
      dsimp only
      rw [readData_cut hall.1 (hsize _ hall.1) (by decide), Nat.sub_zero,
        if_pos hall.2, hall.2]
  · contradiction

theorem readFileByName_of_no_programFile
    (hsize : ∀ inode < img.numInodes,
      img.fileLength inode ≤ 1023 * fsBlockSize)
    (hfile : img.programFile filename = none) :
    (img.readFileByName filename programLimit).1 = -1 := by
  rw [Image.readFileByName]
  cases hname : img.readDentryByName filename with
  | none => rfl
  | some dentry =>
      rw [Image.programFile, hname] at hfile
      dsimp only [Option.bind_some] at hfile ⊢
      split at hfile
      · contradiction
      · next hbad =>
          by_cases hinode : dentry.inodeNum < img.numInodes
          · rw [readData_cut hinode (hsize _ hinode) (by decide),
              Nat.sub_zero, if_neg fun hall => hbad ⟨hinode, hall⟩]
          · rw [Image.readData, if_pos (Nat.le_of_not_lt hinode)]

end Reading

section Header

/-- Without a terminator among them, bytes are copied as they are. -/
theorem strncpyFrom_eq_iff (src : Memory UInt8) (i : Nat)
    {bytes : List UInt8} (hnul : 0 ∉ bytes) :
    strncpyFrom src i bytes.length = bytes ↔
      src.load i bytes.length = bytes := by
  induction bytes generalizing i with
  | nil => exact iff_of_true rfl rfl
  | cons byte rest ih =>
      obtain ⟨hbyte, hrest⟩ := not_or.mp (mt List.mem_cons.mpr hnul)
      rw [List.length_cons, src.load_succ, List.cons.injEq, strncpyFrom]
      split
      · rw [List.cons.injEq, ih _ hrest]
      · next hzero =>
          have hsrc : src i = 0 := not_not.mp hzero
          refine iff_of_false ?_ ?_
          · intro heq
            exact hbyte (List.cons.inj heq).1
          · rintro ⟨heq, -⟩
            exact hbyte (hsrc.symm.trans heq)

/-- The comparison with the magic number. -/
theorem strncmp_magic_iff (src : Memory UInt8) :
    strncmp src (cString elfMagicHeader) elfMagicHeaderLen = 0 ↔
      src.load 0 elfMagicHeaderLen = elfMagicHeader := by
  have hmagic := strncpyFrom_eq_iff src 0 (by decide : 0 ∉ elfMagicHeader)
  exact (strncmpFrom_eq_zero_iff 0 elfMagicHeaderLen).trans hmagic

/-- What stands at the start of a string that was stored. -/
theorem load_storeList_take (pages : Memory UInt8) (addr : Nat)
    {bytes : List UInt8} {offset count : Nat}
    (hfits : offset + count ≤ bytes.length) :
    (pages.storeList addr bytes).load (addr + offset) count =
      (bytes.drop offset).take count := by
  have hpiece := (pages.storeList addr bytes).load_drop_take addr bytes.length
    offset count
  rw [pages.load_storeList, Nat.min_eq_left (by omega)] at hpiece
  exact hpiece.symm

theorem getExecutableEntrypoint_stored (pages : Memory UInt8) (addr : Nat)
    {bytes : List UInt8} (hlength : elfMagicHeaderLen ≤ bytes.length) :
    getExecutableEntrypoint (pages.storeList addr bytes) addr =
      if elfMagicHeader <+: bytes then
        littleEndian ((pages.storeList addr bytes).load
          (addr + elfEntrypointOffset) 4)
      else 0 := by
  have hload := load_storeList_take pages addr
    (by rwa [Nat.zero_add] : 0 + elfMagicHeaderLen ≤ bytes.length)
  have hmagic : strncmp (fun i => pages.storeList addr bytes (addr + i))
      (cString elfMagicHeader) elfMagicHeaderLen = 0 ↔
        elfMagicHeader <+: bytes := by
    rw [strncmp_magic_iff, List.prefix_iff_eq_take]
    rw [List.drop_zero, Nat.add_zero] at hload
    have hview : Memory.load (fun i => pages.storeList addr bytes (addr + i)) 0
        elfMagicHeaderLen = bytes.take elfMagicHeaderLen := by
      rw [← hload]
      apply Memory.load_congr
      intro i _
      rw [Nat.zero_add]
    rw [hview]
    exact eq_comm
  rw [getExecutableEntrypoint]
  by_cases hstart : elfMagicHeader <+: bytes
  · rw [if_neg (not_not.mpr (hmagic.mpr hstart)), if_pos hstart]
  · rw [if_pos (mt hmagic.mp hstart), if_neg hstart]

end Header

section Loading

variable {img : Image} {filename : Memory UInt8}

/-- The result, with the page as the copy leaves it. -/
theorem loadProgramIntoSlot_entry
    (hsize : ∀ inode < img.numInodes,
      img.fileLength inode ≤ 1023 * fsBlockSize)
    (pages : Memory UInt8) (slot : Nat) :
    (loadProgramIntoSlot img pages filename slot).2 =
      match img.programFile filename with
      | none => 0
      | some file =>
          if elfMagicHeaderLen < file.length ∧ elfMagicHeader <+: file then
            littleEndian ((pages.storeList
              (getProcessPageFromSlot slot + processLinkOffset)
              (file.take programLimit)).load
                (getProcessPageFromSlot slot + processLinkOffset +
                  elfEntrypointOffset) 4)
          else 0 := by
  cases hfile : img.programFile filename with
  | none =>
      have hfail := readFileByName_of_no_programFile hsize hfile
      simp only [loadProgramIntoSlot, programLimit] at hfail ⊢
      rw [hfail]
      rfl
  | some file =>
      have hread := readFileByName_of_programFile hsize hfile
      have hcut : (file.take programLimit).length =
          min programLimit file.length := List.length_take
      simp only [loadProgramIntoSlot, programLimit] at hread ⊢
      rw [hread]
      dsimp only
      rw [if_neg (by omega), hcut]
      by_cases hshort : elfMagicHeaderLen < file.length
      · have hlong : ¬ ((min programLimit file.length : Nat) : Int) ≤
            elfMagicHeaderLen := by
          simp only [programLimit, processPageSize, processLinkOffset,
            elfMagicHeaderLen] at *
          omega
        have hbytes : elfMagicHeaderLen ≤ (file.take programLimit).length := by
          rw [hcut]
          simp only [programLimit, processPageSize, processLinkOffset,
            elfMagicHeaderLen] at *
          omega
        have hbegins : elfMagicHeader <+: file.take programLimit ↔
            elfMagicHeader <+: file := by
          rw [List.prefix_iff_eq_take, List.take_take,
            List.prefix_iff_eq_take]
          rfl
        rw [if_neg hlong]
        have hentry := getExecutableEntrypoint_stored pages
          (getProcessPageFromSlot slot + processLinkOffset) hbytes
        simp only [hbegins] at hentry
        simp only [hshort, true_and]
        exact hentry
      · have hsmall : ((min programLimit file.length : Nat) : Int) ≤
            elfMagicHeaderLen := by omega
        rw [if_pos hsmall, if_neg fun hboth => hshort hboth.1]

/-- The start address of a file that is long enough to have one. -/
theorem entry_of_long_file (pages : Memory UInt8) (addr : Nat)
    {file : List UInt8} (hlong : elfEntrypointOffset + 4 ≤ file.length) :
    (pages.storeList addr (file.take programLimit)).load
        (addr + elfEntrypointOffset) 4 =
      (file.drop elfEntrypointOffset).take 4 := by
  have hlimit : elfEntrypointOffset + 4 ≤ programLimit := by decide
  rw [load_storeList_take pages addr (by rw [List.length_take]; omega),
    List.drop_take, List.take_take, Nat.min_eq_left (by omega)]

/-- The highest byte of the start address decides between the halves below and
above 2^24. -/
theorem littleEndian_four (mem : Memory UInt8) (addr : Nat) :
    littleEndian (mem.load addr 4) / 2 ^ 24 = (mem (addr + 3)).toNat := by
  have hfour : mem.load addr 4 =
      [mem addr, mem (addr + 1), mem (addr + 2), mem (addr + 3)] := rfl
  have h0 := (mem addr).toNat_lt
  have h1 := (mem (addr + 1)).toNat_lt
  have h2 := (mem (addr + 2)).toNat_lt
  simp only [hfour, littleEndian, List.foldr_cons, List.foldr_nil]
  omega

/-- A start address behind the end of the file is made of what the page held
before. -/
theorem entry_of_short_file (byte : UInt8) (addr : Nat) {file : List UInt8}
    (hshort : file.length < elfEntrypointOffset + 4) :
    littleEndian ((Memory.storeList (fun _ => byte) addr
        (file.take programLimit)).load (addr + elfEntrypointOffset) 4) /
      2 ^ 24 = byte.toNat := by
  have hcut : (file.take programLimit).length ≤ file.length :=
    List.length_take_le' _ _
  rw [littleEndian_four, Memory.storeList_of_outside]
  exact Or.inr (by omega)

/-- The result for a file that has its start address, if it starts like a
program at all. -/
theorem loadProgramIntoSlot_whole
    (hsize : ∀ inode < img.numInodes,
      img.fileLength inode ≤ 1023 * fsBlockSize)
    (hwhole : ¬ img.HeaderCut filename) (pages : Memory UInt8) (slot : Nat) :
    (loadProgramIntoSlot img pages filename slot).2 =
      match img.programFile filename with
      | none => 0
      | some file =>
          if elfMagicHeaderLen < file.length ∧ elfMagicHeader <+: file then
            littleEndian ((file.drop elfEntrypointOffset).take 4)
          else 0 := by
  rw [loadProgramIntoSlot_entry hsize]
  cases hfile : img.programFile filename with
  | none => rfl
  | some file =>
      dsimp only
      split
      · next hstart =>
          have hlong : elfEntrypointOffset + 4 ≤ file.length := by
            by_contra hshort
            exact hwhole ⟨file, hfile, hstart.2, hstart.1,
              Nat.lt_of_not_le hshort⟩
          rw [entry_of_long_file pages _ hlong]
      · rfl

/-- The result of loading a program depends on nothing but its file, and the
start address is in the file, unless the file starts like a program and ends
before byte 28.  Nothing is ever written outside the part of the slot's page
that programs are loaded into. -/
theorem loads_from_file_iff
    (hsize : ∀ inode < img.numInodes,
      img.fileLength inode ≤ 1023 * fsBlockSize) (slot : Nat) :
    (img.LoadsFromFile filename slot ↔ ¬ img.HeaderCut filename) ∧
      ∀ (pages : Memory UInt8) (addr : Nat),
        addr < getProcessPageFromSlot slot + processLinkOffset ∨
          getProcessPageFromSlot slot + processPageSize ≤ addr →
        (loadProgramIntoSlot img pages filename slot).1 addr = pages addr := by
  have hentry := fun pages : Memory UInt8 =>
    @loadProgramIntoSlot_entry img filename hsize pages slot
  refine ⟨⟨?_, ?_⟩, fun pages addr => loadProgramIntoSlot_unwritten pages _⟩
  · rintro hloads ⟨file, hfile, hmagic, hlong, hshort⟩
    -- two pages that differ in the byte at offset 27
    have hsame := hloads.same (fun _ => 0) (fun _ => 1)
    simp only [hentry, hfile, hlong, hmagic, and_self, ↓reduceIte] at hsame
    have hhigh := congrArg (· / 2 ^ 24) hsame
    simp only [entry_of_short_file _ _ hshort] at hhigh
    exact absurd hhigh (by decide)
  · intro hwhole
    have hresult := fun pages : Memory UInt8 =>
      loadProgramIntoSlot_whole hsize hwhole pages slot
    constructor
    · intro pages other
      rw [hresult pages, hresult other]
    · intro pages hnonzero
      rw [hresult pages] at hnonzero ⊢
      cases hfile : img.programFile filename with
      | none =>
          rw [hfile] at hnonzero
          exact absurd rfl hnonzero
      | some file =>
          rw [hfile] at hnonzero
          dsimp only at hnonzero ⊢
          split at hnonzero
          · next hstart =>
              refine ⟨file, rfl, hstart.2, ?_, if_pos hstart⟩
              by_contra hshort
              exact hwhole ⟨file, hfile, hstart.2, hstart.1,
                Nat.lt_of_not_le hshort⟩
          · exact absurd rfl hnonzero

end Loading

/-- A file of `length` bytes that starts with the magic number. -/
def headerImage (length : Nat) : Image where
  numDirectoryEntries := 1
  numInodes := 1
  numDataBlocks := 1
  directoryEntries := fun _ => ⟨cString [112], 2, 0, fun _ => 0⟩
  fileLength := fun _ => length
  dataBlocks := fun _ _ => 0
  data := fun _ i => elfMagicHeader.getD i 4

/-- With 28 bytes the file has its start address. -/
theorem headerFile_loads_from_file :
    (headerImage 28).LoadsFromFile (cString [112]) 3 := by
  have hsize : ∀ inode < (headerImage 28).numInodes,
      (headerImage 28).fileLength inode ≤ 1023 * fsBlockSize := by decide
  refine (loads_from_file_iff hsize 3).1.mpr ?_
  rintro ⟨file, hfile, -, -, hshort⟩
  have hlength : ((headerImage 28).programFile (cString [112])).map
      List.length = some 28 := by decide
  rw [hfile] at hlength
  exact absurd (Option.some.inj hlength ▸ hshort) (by decide)

/-- With five bytes the start address is what the page held before. -/
theorem shortHeader_loads_stale_bytes :
    (loadProgramIntoSlot (headerImage 5) (fun _ => 0) (cString [112]) 3).2 =
        0 ∧
      (loadProgramIntoSlot (headerImage 5) (fun _ => 8) (cString [112]) 3).2 =
        0x08080808 := by
  decide +kernel

end PsychOS
