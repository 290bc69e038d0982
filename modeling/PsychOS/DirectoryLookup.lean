/-
Names in the directory.  Programs list the directory with `dir_read` and pass
the names back to `open`.  A name goes through `strncpy` on its way out and
through `strncmp` on its way back; both see it up to its terminator or its
32nd byte.
-/
import PsychOS.DescriptorCalls
import PsychOS.FileContents
import PsychOS.Lib.Strings

namespace PsychOS

/-- The name of an entry: the bytes before the first NUL, at most 32. -/
def Dentry.name (entry : Dentry) : List UInt8 :=
  (entry.fileName.load 0 maxFileNameLength).takeWhile (· ≠ 0)

/-- No two entries of the directory have the same name. -/
def Image.DistinctNames (img : Image) : Prop :=
  ∀ i < img.numDirectoryEntries, ∀ j < img.numDirectoryEntries,
    (img.directoryEntries i).name = (img.directoryEntries j).name → i = j

instance (img : Image) : Decidable img.DistinctNames :=
  inferInstanceAs (Decidable (∀ i < img.numDirectoryEntries,
    ∀ j < img.numDirectoryEntries, _ → i = j))

/-- Read a directory again and again with the same count; the answer of the
last of `i + 1` reads. -/
def dirReadNth (img : Image) (nbytes : Int) :
    FileDesc → Nat → FileDesc × Int × List UInt8
  | f, 0 => dirRead img f nbytes
  | f, i + 1 => dirReadNth img nbytes (dirRead img f nbytes).1 i

/-- A buffer of the caller with the bytes read and a NUL behind them, at
`buf[cnt]`. -/
def terminated (buffer : Memory UInt8) (ret : Int) (stored : List UInt8) :
    Memory UInt8 :=
  (buffer.storeList 0 stored).store ret.toNat 0

section Compare

variable {s1 s2 : Memory UInt8}

theorem signed_sub_eq_zero_iff (a b : UInt8) :
    a.toInt8.toInt - b.toInt8.toInt = 0 ↔ a = b := by
  rw [Int.sub_eq_zero, Int8.toInt_inj]
  constructor
  · intro heq
    have hback := congrArg Int8.toUInt8 heq
    simpa using hback
  · rintro rfl
    rfl

/-- Two strings compare equal exactly if `strncpy` makes the same of them.
The induction is on the characters left. -/
theorem strncmpFrom_eq_zero_iff (i count : Nat) :
    strncmpFrom s1 s2 i count = 0 ↔
      strncpyFrom s1 i count = strncpyFrom s2 i count := by
  induction count generalizing i with
  | zero => exact iff_of_true rfl rfl
  | succ count ih =>
      rw [strncmpFrom, strncpyFrom, strncpyFrom]
      by_cases hsame : s1 i = s2 i
      · by_cases hend : s2 i = 0
        · simp [hsame, hend]
        · simp [hsame, hend, ih]
      · rw [if_pos (Or.inl hsame), signed_sub_eq_zero_iff]
        refine iff_of_false hsame ?_
        split
        · split
          · exact fun heq => hsame (List.cons.inj heq).1
          · rename_i hleft hright
            exact fun heq => hleft (List.cons.inj heq).1
        · split
          · rename_i hright
            exact fun heq => hright (List.cons.inj heq).1.symm
          · rename_i hleft hright
            exact absurd ((not_not.mp hleft).trans (not_not.mp hright).symm)
              hsame

end Compare

section Names

variable (entry : Dentry)

/-- The padding can be told from the name. -/
theorem Dentry.takeWhile_paddedName :
    entry.paddedName.takeWhile (· ≠ 0) = entry.name := by
  have hname : ∀ byte ∈ entry.name, decide (byte ≠ 0) = true :=
    List.all_eq_true.mp List.all_takeWhile
  change (entry.name ++ List.replicate _ 0).takeWhile _ = _
  rw [List.takeWhile_append_of_pos hname]
  cases maxFileNameLength - entry.name.length with
  | zero => simp
  | succ count => simp

variable {entry}

/-- Entries compare equal exactly if their names are the same. -/
theorem paddedName_eq_iff {other : Dentry} :
    entry.paddedName = other.paddedName ↔ entry.name = other.name := by
  constructor
  · intro heq
    rw [← entry.takeWhile_paddedName, heq, other.takeWhile_paddedName]
  · intro heq
    have hpadded (entry : Dentry) : entry.paddedName = entry.name ++
        List.replicate (maxFileNameLength - entry.name.length) 0 := rfl
    rw [hpadded, hpadded, heq]

/-- A string that starts with a padded name compares as the entry does. -/
theorem strncpy_of_paddedName {fname : Memory UInt8}
    (hname : fname.load 0 maxFileNameLength = entry.paddedName) :
    strncpy fname maxFileNameLength = entry.paddedName := by
  rw [strncpy, strncpyFrom_eq, hname, entry.takeWhile_paddedName]
  rfl

end Names

section Lookup

variable {img : Image}

/-- The first entry that compares equal is the one that is copied. -/
theorem readDentryByName_of_match {fname : Memory UInt8} {p : Nat → Prop}
    (hmatch : ∀ j, strncmp fname (img.directoryEntries j).fileName
      maxFileNameLength = 0 ↔ p j)
    {i : Nat} (hi : i < img.numDirectoryEntries) (hfirst : p i)
    (hbefore : ∀ j < i, ¬ p j) :
    img.readDentryByName fname =
      some (Image.copyDentry (img.directoryEntries i)) := by
  have hfind : (List.range img.numDirectoryEntries).find? (fun j =>
      strncmp fname (img.directoryEntries j).fileName maxFileNameLength ==
        0) = some i := by
    rw [List.find?_range_eq_some]
    refine ⟨?_, List.mem_range.mpr hi, ?_⟩
    · exact beq_iff_eq.mpr ((hmatch i).mpr hfirst)
    · intro j hj
      rw [Bool.not_eq_true', beq_eq_false_iff_ne, Ne, hmatch]
      exact hbefore j hj
  rw [Image.readDentryByName, hfind, Option.map_some]

/-- With distinct names, the name of an entry finds that entry, wherever it
is. -/
theorem readDentryByName_of_paddedName (hdistinct : img.DistinctNames)
    {fname : Memory UInt8} {i : Nat} (hi : i < img.numDirectoryEntries)
    (hname : fname.load 0 maxFileNameLength =
      (img.directoryEntries i).paddedName) :
    img.readDentryByName fname =
      some (Image.copyDentry (img.directoryEntries i)) := by
  have hmatch (j : Nat) :
      strncmp fname (img.directoryEntries j).fileName maxFileNameLength = 0 ↔
        (img.directoryEntries i).name = (img.directoryEntries j).name := by
    rw [← paddedName_eq_iff, ← strncpy_of_paddedName hname,
      ← Dentry.strncpy_eq_paddedName]
    exact strncmpFrom_eq_zero_iff 0 maxFileNameLength
  apply readDentryByName_of_match hmatch hi rfl
  intro j hj heq
  exact absurd (hdistinct i hi j (by omega) heq) (by omega)

/-- One read of 32 bytes hands out the padded name at the position. -/
theorem dirRead_name {f : FileDesc}
    (hposition : f.filePosition < img.numDirectoryEntries) :
    dirRead img f maxFileNameLength =
      ({ f with filePosition := (f.filePosition + 1) % 2 ^ 32 },
        (maxFileNameLength : Int),
        (img.directoryEntries f.filePosition).paddedName) := by
  have hunsigned : toUint32 maxFileNameLength = maxFileNameLength := rfl
  rw [dirRead, Image.readDentryByIndex,
    if_neg (Nat.not_le_of_lt hposition)]
  simp only [gt_iff_lt, Int.lt_irrefl, ↓reduceIte, hunsigned,
    copyDentry_load _ (Nat.le_refl _)]
  rw [List.take_of_length_le (Nat.le_of_eq (Dentry.paddedName_length _))]

/-- The reads hand out the names in order. -/
theorem dirReadNth_name (hcount : img.numDirectoryEntries ≤ 63)
    {f : FileDesc} {i : Nat}
    (hposition : f.filePosition + i < img.numDirectoryEntries) :
    (dirReadNth img maxFileNameLength f i).2 =
      ((maxFileNameLength : Int),
        (img.directoryEntries (f.filePosition + i)).paddedName) := by
  induction i generalizing f with
  | zero =>
      rw [dirReadNth, dirRead_name hposition]
      rfl
  | succ i ih =>
      have hnow := @dirRead_name img f (by omega)
      have hnowrap : (f.filePosition + 1) % 2 ^ 32 = f.filePosition + 1 := by
        omega
      rw [hnowrap] at hnow
      rw [dirReadNth, hnow, ih (by dsimp only; omega)]
      simp only [Nat.add_assoc, Nat.add_comm 1 i]

theorem terminated_load (buffer : Memory UInt8) {stored : List UInt8}
    (hlength : stored.length = maxFileNameLength) :
    (terminated buffer maxFileNameLength stored).load 0 maxFileNameLength =
      stored := by
  have hbefore : (terminated buffer maxFileNameLength stored).load 0
      maxFileNameLength =
        (buffer.storeList 0 stored).load 0 maxFileNameLength := by
    apply Memory.load_congr
    intro i hi
    exact Memory.store_of_ne _ _ (by simp only [maxFileNameLength] at *; omega)
  rw [hbefore, ← hlength]
  exact Memory.load_storeList buffer 0 stored

end Lookup

/-- The `i`-th name listed, with a NUL behind its 32 bytes, looks up the entry
with index `i`: the same name, type, inode number and reserved bytes. -/
theorem listed_name_finds_entry {img : Image} {f : FileDesc} {i : Nat}
    (buffer : Memory UInt8) (hcount : img.numDirectoryEntries ≤ 63)
    (hdistinct : img.DistinctNames)
    (hstart : f.filePosition = 0) (hi : i < img.numDirectoryEntries) :
    ∃ dentry, img.readDentryByIndex i = some dentry ∧
      img.readDentryByName (terminated buffer
        (dirReadNth img maxFileNameLength f i).2.1
        (dirReadNth img maxFileNameLength f i).2.2) = some dentry := by
  have hread := @dirReadNth_name img hcount f i (by omega)
  rw [hstart, Nat.zero_add] at hread
  refine ⟨_, if_neg (Nat.not_le_of_lt hi), ?_⟩
  rw [hread]
  exact readDentryByName_of_paddedName hdistinct hi
    (terminated_load buffer (Dentry.paddedName_length _))

/-- A name of 32 bytes without a terminator between two of its beginnings. -/
def prefixImage : Image where
  numDirectoryEntries := 3
  numInodes := 1
  numDataBlocks := 1
  directoryEntries := fun i =>
    if i = 0 then ⟨cString [97, 97], 2, 0, fun _ => 1⟩
    else if i = 1 then ⟨fun _ => 97, 1, 0, fun _ => 2⟩
    else ⟨cString [97], 0, 0, fun _ => 3⟩
  fileLength := fun _ => 0
  dataBlocks := fun _ _ => 0
  data := fun _ _ => 0

theorem fullLengthName_finds_entry : ∃ dentry,
    prefixImage.readDentryByIndex 1 = some dentry ∧
      prefixImage.readDentryByName (terminated (fun _ => 120) 32
        (List.replicate 32 97)) = some dentry :=
  @listed_name_finds_entry prefixImage ⟨some .dir, 0, 1, 0⟩ 1 (fun _ => 120)
    (by decide) (by decide +kernel) rfl (by decide)

section ExactNames

variable {img : Image} {fname : Memory UInt8} {name : List UInt8}

/-- Entry `i` is the first with the name. -/
def Image.FirstNamed (img : Image) (name : List UInt8) (i : Nat) : Prop :=
  i < img.numDirectoryEntries ∧ (img.directoryEntries i).name = name ∧
    ∀ j < i, (img.directoryEntries j).name ≠ name

/-- A name is found exactly if an entry has it, and it stands for the first one
that does: when it is looked up, read as a file and opened. -/
structure Image.ExactLookup (img : Image) (fname : Memory UInt8)
    (name : List UInt8) : Prop where
  found : ∀ i, img.FirstNamed name i → ∃ dentry,
    img.readDentryByName fname = some dentry ∧ dentry.name = name ∧
      dentry.fileType = (img.directoryEntries i).fileType ∧
      dentry.inodeNum = (img.directoryEntries i).inodeNum ∧
      dentry.reserved = (img.directoryEntries i).reserved
  missing : (∀ i < img.numDirectoryEntries,
    (img.directoryEntries i).name ≠ name) →
      img.readDentryByName fname = none
  found_file : ∀ i, img.FirstNamed name i → ∀ nbytes,
    img.readFileByName fname nbytes =
      img.readData (img.directoryEntries i).inodeNum 0 nbytes
  missing_file : (∀ i < img.numDirectoryEntries,
    (img.directoryEntries i).name ≠ name) →
      ∀ nbytes, img.readFileByName fname nbytes = (-1, [])
  found_open : ∀ i, img.FirstNamed name i →
    (img.directoryEntries i).fileType ≤ 2 →
      ∀ (pcb : Pcb) (fd : Nat), fd < maxFileDescriptors →
        (pcb.fa fd).inUse = false →
        (∀ smaller < fd, (pcb.fa smaller).inUse = true) →
          (syscallOpen img pcb fname).2 = fd ∧
            ((syscallOpen img pcb fname).1.fa fd).inode =
              (img.directoryEntries i).inodeNum
  missing_open : (∀ i < img.numDirectoryEntries,
    (img.directoryEntries i).name ≠ name) →
      ∀ pcb, syscallOpen img pcb fname = (pcb, -1)

/-- The comparison sees no more than 32 bytes of the name. -/
theorem strncmp_fileName_iff (hholds : HoldsString fname 0 name)
    (hnul : 0 ∉ name) (entry : Dentry) :
    strncmp fname entry.fileName maxFileNameLength = 0 ↔
      entry.name = name.take maxFileNameLength := by
  have hname : Dentry.name { entry with fileName := fname } =
      name.take maxFileNameLength :=
    hholds.takeWhile_load hnul maxFileNameLength
  have hpadded : strncpy fname maxFileNameLength =
      Dentry.paddedName { entry with fileName := fname } :=
    Dentry.strncpy_eq_paddedName { entry with fileName := fname }
  rw [← hname, ← paddedName_eq_iff, ← hpadded, ← Dentry.strncpy_eq_paddedName]
  exact (strncmpFrom_eq_zero_iff 0 maxFileNameLength).trans eq_comm

theorem copyDentry_name (entry : Dentry) :
    (Image.copyDentry entry).name = entry.name := by
  rw [Dentry.name, copyDentry_load entry (Nat.le_refl _),
    List.take_of_length_le (Nat.le_of_eq entry.paddedName_length)]
  exact entry.takeWhile_paddedName

/-- The lookup is one for the first 32 bytes of the name. -/
theorem readDentryByName_of_first (hholds : HoldsString fname 0 name)
    (hnul : 0 ∉ name) {i : Nat}
    (hfirst : img.FirstNamed (name.take maxFileNameLength) i) :
    img.readDentryByName fname =
      some (Image.copyDentry (img.directoryEntries i)) := by
  obtain ⟨hi, hname, hbefore⟩ := hfirst
  exact readDentryByName_of_match
    (fun j => strncmp_fileName_iff hholds hnul (img.directoryEntries j)) hi
    hname hbefore

theorem readDentryByName_eq_none_iff (hholds : HoldsString fname 0 name)
    (hnul : 0 ∉ name) :
    img.readDentryByName fname = none ↔ ∀ i < img.numDirectoryEntries,
      (img.directoryEntries i).name ≠ name.take maxFileNameLength := by
  rw [Image.readDentryByName, Option.map_eq_none_iff, List.find?_eq_none]
  constructor
  · intro hnone i hi hname
    have hmatch := (strncmp_fileName_iff hholds hnul _).mpr hname
    exact hnone i (List.mem_range.mpr hi) (beq_iff_eq.mpr hmatch)
  · intro hnone i hi hmatch
    exact hnone i (List.mem_range.mp hi)
      ((strncmp_fileName_iff hholds hnul _).mp (beq_iff_eq.mp hmatch))

theorem Dentry.name_length_le (entry : Dentry) :
    entry.name.length ≤ maxFileNameLength := by
  have hle := (List.takeWhile_sublist (· ≠ (0 : UInt8))
    (l := entry.fileName.load 0 maxFileNameLength)).length_le
  rwa [Memory.load_length] at hle

/-- What follows for files and descriptors from what the lookup says. -/
theorem Image.ExactLookup.of_lookup
    (hfound : ∀ i, img.FirstNamed name i → img.readDentryByName fname =
      some (Image.copyDentry (img.directoryEntries i)))
    (hmissing : (∀ i < img.numDirectoryEntries,
      (img.directoryEntries i).name ≠ name) →
        img.readDentryByName fname = none) :
    img.ExactLookup fname name := by
  refine ⟨?_, hmissing, ?_, ?_, ?_, ?_⟩
  · intro i hfirst
    exact ⟨_, hfound i hfirst, (copyDentry_name _).trans hfirst.2.1, rfl, rfl,
      rfl⟩
  · intro i hfirst nbytes
    rw [Image.readFileByName, hfound i hfirst]
    rfl
  · intro hnone nbytes
    rw [Image.readFileByName, hmissing hnone]
  · intro i hfirst htype pcb fd hfd hfree hsmaller
    rcases syscallOpen_cases img pcb fname with hfail | hopened
    · rcases hfail.2 with hfull | htypes
      · rw [hfull fd hfd] at hfree
        contradiction
      · exact absurd (htypes _ (hfound i hfirst)) (Nat.not_lt_of_le htype)
    · obtain ⟨other, dentry, -, hfree', hsmaller', hname, -, hresult⟩ :=
        hopened
      obtain rfl : dentry = copyDentry (img.directoryEntries i) :=
        Option.some.inj (hname.symm.trans (hfound i hfirst))
      -- both are the first free descriptor
      obtain rfl : other = fd := by
        rcases Nat.lt_trichotomy other fd with hlt | heq | hgt
        · simp [hsmaller other hlt] at hfree'
        · exact heq
        · simp [hsmaller' fd hgt] at hfree
      rw [hresult]
      refine ⟨rfl, ?_⟩
      simp [Pcb.setFd, Image.copyDentry]
  · intro hnone pcb
    rcases syscallOpen_cases img pcb fname with hfail | hopened
    · exact hfail.1
    · obtain ⟨-, dentry, -, -, -, hname, -⟩ := hopened
      rw [hmissing hnone] at hname
      contradiction

/-- Names are looked up exactly, except for one that continues the name of an
entry beyond 32 bytes. -/
theorem lookup_exact_iff (hholds : HoldsString fname 0 name)
    (hnul : 0 ∉ name) :
    img.ExactLookup fname name ↔
      ¬ (maxFileNameLength < name.length ∧ ∃ i < img.numDirectoryEntries,
        (img.directoryEntries i).name = name.take maxFileNameLength) := by
  constructor
  · rintro hexact ⟨hlong, i, hi, hname⟩
    have hnone : ∀ j < img.numDirectoryEntries,
        (img.directoryEntries j).name ≠ name := by
      intro j _ heq
      have hle := (img.directoryEntries j).name_length_le
      rw [heq] at hle
      omega
    exact (readDentryByName_eq_none_iff hholds hnul).mp
      (hexact.missing hnone) i hi hname
  · intro hshort
    have hcut : (∃ i < img.numDirectoryEntries,
        (img.directoryEntries i).name = name.take maxFileNameLength) →
        name.take maxFileNameLength = name := by
      intro hentry
      apply List.take_of_length_le
      by_contra hlong
      exact hshort ⟨Nat.lt_of_not_le hlong, hentry⟩
    apply Image.ExactLookup.of_lookup
    · intro i hfirst
      have hle := (img.directoryEntries i).name_length_le
      rw [hfirst.2.1] at hle
      apply readDentryByName_of_first hholds hnul
      rwa [List.take_of_length_le hle]
    · intro hnone
      rw [readDentryByName_eq_none_iff hholds hnul]
      intro i hi hname
      exact hnone i hi (hname.trans (hcut ⟨i, hi, hname⟩))

end ExactNames

/-- A short beginning of a long name is an entry of its own. -/
theorem shortName_exact : prefixImage.ExactLookup (cString [97]) [97] :=
  (lookup_exact_iff (by rfl) (by decide)).mpr
    fun hlong => absurd hlong.1 (by decide)

/-- The name of the second entry and one letter more opens that entry. -/
theorem extendedName_opens :
    (∀ i < prefixImage.numDirectoryEntries,
        (prefixImage.directoryEntries i).name ≠ List.replicate 33 97) ∧
      (prefixImage.readDentryByName
        (cString (List.replicate 33 97))).isSome ∧
      (syscallOpen prefixImage Pcb.zeroed
        (cString (List.replicate 33 97))).2 = 0 := by
  decide +kernel

end PsychOS
