/-
The user programs `cat` and `ls`: what they print, and that they come to an
end, whatever else the system does meanwhile.
-/
import PsychOS.ProgramCalls

namespace PsychOS

section Source

/-- Where a program has its buffer and its literals. -/
structure ProgramAddresses where
  buf : Nat
  literals : Nat

variable (addrs : ProgramAddresses)

/-- Read up to `nbytes` bytes at a time and print them with `ending` put
behind, for at most so many turns. -/
def copyLoop (nbytes : Nat) (ending : List UInt8) (failure : String)
    (fd : Int) : Nat → Memory UInt8 → Program (Option Int)
  | 0, _ => return none
  | turns + 1, mem => do
      let cnt ← ece391Read fd addrs.buf nbytes
      let mem := mem.storeList addrs.buf cnt.stored
      if cnt.ret = 0 then return some 0
      else if cnt.ret = -1 then
        let _ ← putLiteral mem addrs.literals failure
        return some 3
      else
        let mem := mem.storeList (addrs.buf + cnt.ret.toNat) ending
        let written ← ece391Write mem 1 addrs.buf (cnt.ret + ending.length)
        if written.ret = -1 then return some 3
        else copyLoop nbytes ending failure fd turns mem

/-- The loop of `cat`. -/
def catLoop : Int → Nat → Memory UInt8 → Program (Option Int) :=
  copyLoop addrs 1024 [] "file read failed\n"

/-- `main` of `cat`. -/
def catMain (turns : Nat) (mem : Memory UInt8) : Program (Option Int) := do
  let args ← ece391Getargs addrs.buf 1024
  let mem := mem.storeList addrs.buf args.stored
  if args.ret ≠ 0 then
    let _ ← putLiteral mem addrs.literals "could not read arguments\n"
    return some 3
  else
    let fd ← ece391Open (mem.load addrs.buf 1024)
    if fd.ret = -1 then
      let _ ← putLiteral mem addrs.literals "file not found\n"
      return some 2
    else catLoop addrs fd.ret turns mem

/-- The loop of `ls`. -/
def lsLoop : Int → Nat → Memory UInt8 → Program (Option Int) :=
  copyLoop addrs 32 [newline] "directory entry read failed\n"

/-- `main` of `ls`. -/
def lsMain (turns : Nat) (mem : Memory UInt8) : Program (Option Int) := do
  let fd ← ece391Open (literal ".")
  if fd.ret = -1 then
    let _ ← putLiteral mem addrs.literals "directory open failed\n"
    return some 2
  else lsLoop addrs fd.ret turns mem

end Source

section Loops

variable {img : Image} {addrs : ProgramAddresses} {nbytes : Nat}
  {ending : List UInt8} {failure : String} {fd : Nat}

/-- The loop prints every piece with the ending behind it. -/
theorem copyLoop_prints (hwf : img.WellFormed)
    (hbuf : FitsPage addrs.buf (nbytes + ending.length)) (hnbytes : 0 < nbytes)
    (hfd : fd < maxFileDescriptors) (hne : fd ≠ 1)
    {pieces : List (List UInt8)} {turns : Nat} (hturns : pieces.length < turns)
    {sess : Session} (hout : HasStdout sess)
    (hunread : Unread img nbytes (sess.pcb.fa fd) pieces)
    (mem : Memory UInt8) :
    Prints img (copyLoop addrs nbytes ending failure fd turns mem) (some 0)
      (pieces.flatMap (· ++ ending)) sess := by
  have hroom : FitsPage addrs.buf nbytes := hbuf.mono (Nat.le_add_right _ _)
  induction turns generalizing pieces sess mem with
  | zero => exact absurd hturns (Nat.not_lt_zero _)
  | succ turns ih =>
  apply Prints.read hwf hunread hfd hroom hnbytes
  intro after reply hstored hret hrest hothers
  cases pieces with
  | nil =>
      have hzero : reply.ret = 0 := hret
      rw [if_pos hzero]
      exact .pure _ after
  | cons piece pieces =>
      obtain ⟨hpos, hlength⟩ :=
        hunread.piece_length hnbytes piece List.mem_cons_self
      have hpiece : reply.stored = piece := hstored
      have hcount : reply.ret = piece.length := hret
      have hsum : reply.ret + ending.length =
          ((piece ++ ending).length : Int) := by
        rw [hcount, List.length_append, Int.natCast_add]
      have hstdout : HasStdout after := by
        rw [HasStdout, hothers 1 hne.symm]
        exact hout
      have hwritten : FitsPage addrs.buf (piece ++ ending).length := by
        rw [List.length_append]
        exact hbuf.mono (Nat.add_le_add_right hlength _)
      rw [if_neg (by omega), if_neg (by omega), hsum, hpiece, hcount,
        Int.toNat_natCast, ← Memory.storeList_append, List.flatMap_cons]
      apply Prints.write hstdout hwritten (Memory.load_storeList ..)
      intro next written hkept hret
      rw [if_neg (by omega)]
      apply ih (Nat.lt_of_succ_lt_succ hturns) (hkept.hasStdout hstdout)
      rw [hkept.fa_eq]
      exact hrest

end Loops

section Mains

variable {img : Image} {addrs : ProgramAddresses} {sess : Session}

/-- The first entry with the name. -/
def Image.entryNamed (img : Image) (name : List UInt8) : Option Dentry :=
  ((List.range img.numDirectoryEntries).find? fun i =>
    (img.directoryEntries i).name = name).map img.directoryEntries

/-- A name is looked up by its first 32 bytes. -/
theorem readDentryByName_eq_entryNamed {fname : Memory UInt8}
    {name : List UInt8} (hholds : HoldsString fname 0 name) (hnul : 0 ∉ name) :
    img.readDentryByName fname =
      (img.entryNamed (name.take maxFileNameLength)).map Image.copyDentry := by
  have hsame : (fun i => strncmp fname (img.directoryEntries i).fileName
      maxFileNameLength == 0) = fun i =>
      decide ((img.directoryEntries i).name = name.take maxFileNameLength) := by
    funext i
    rw [Bool.eq_iff_iff, beq_iff_eq, decide_eq_true_iff]
    exact strncmp_fileName_iff hholds hnul _
  rw [Image.readDentryByName, hsame, Image.entryNamed, Option.map_map]
  rfl

/-- A string is handed over with the buffer it is in. -/
theorem holdsString_loaded {mem : Memory UInt8} {addr count : Nat}
    {bytes : List UInt8} (hholds : HoldsString mem addr bytes)
    (hroom : bytes.length < count) :
    HoldsString (cString (mem.load addr count)) 0 bytes := by
  rw [HoldsString, load_cString _ (by rwa [Memory.load_length])]
  obtain ⟨more, rfl⟩ := Nat.exists_eq_add_of_le (Nat.succ_le_of_lt hroom)
  rw [mem.load_add, List.take_left' (mem.load_length _ _)]
  exact hholds

/-- What `cat` makes of a name: its code and what it prints.  On the clock it
waits for a tick, which is not for it to say when it comes. -/
def Image.catShows (img : Image) (name : List UInt8) :
    Option (Int × List UInt8) :=
  match img.entryNamed (name.take maxFileNameLength) with
  | none => some (2, literal "file not found\n")
  | some entry =>
      if entry.fileType = 0 then none
      else if entry.fileType = 1 then some (0, (img.listing 0).flatten)
      else if entry.fileType = 2 then some (0, img.content entry.inodeNum)
      else some (2, literal "file not found\n")

/-- Either the name cannot be opened, or there is something to read. -/
theorem catShows_cases {name : List UInt8} {code : Int} {text : List UInt8}
    (hshows : img.catShows name = some (code, text)) :
    (code = 2 ∧ text = literal "file not found\n" ∧
        ∀ entry, img.entryNamed (name.take maxFileNameLength) = some entry →
          2 < entry.fileType) ∨
      (code = 0 ∧ ∃ entry,
        img.entryNamed (name.take maxFileNameLength) = some entry ∧
          (entry.fileType = 1 ∧ text = (img.listing 0).flatten ∨
            entry.fileType = 2 ∧ text = img.content entry.inodeNum)) := by
  rw [Image.catShows] at hshows
  cases hentry : img.entryNamed (name.take maxFileNameLength) with
  | none =>
      rw [hentry] at hshows
      obtain ⟨rfl, rfl⟩ := Prod.mk.inj (Option.some.inj hshows)
      exact Or.inl ⟨rfl, rfl, nofun⟩
  | some entry =>
      rw [hentry] at hshows
      dsimp only at hshows
      split at hshows
      · cases hshows
      · split at hshows
        · obtain ⟨rfl, rfl⟩ := Prod.mk.inj (Option.some.inj hshows)
          exact Or.inr ⟨rfl, entry, rfl, Or.inl ⟨‹_›, rfl⟩⟩
        · split at hshows
          · obtain ⟨rfl, rfl⟩ := Prod.mk.inj (Option.some.inj hshows)
            exact Or.inr ⟨rfl, entry, rfl, Or.inr ⟨‹_›, rfl⟩⟩
          · obtain ⟨rfl, rfl⟩ := Prod.mk.inj (Option.some.inj hshows)
            refine Or.inl ⟨rfl, rfl, ?_⟩
            rintro _ ⟨rfl⟩
            omega

theorem entryNamed_inode (hwf : img.WellFormed) {name : List UInt8}
    {entry : Dentry} (hentry : img.entryNamed name = some entry) :
    entry.inodeNum < img.numInodes := by
  obtain ⟨i, hfind, rfl⟩ := Option.map_eq_some_iff.mp hentry
  exact hwf.inode_lt i (List.mem_range.mp (List.mem_of_find?_eq_some hfind))

/-- Names are read whole. -/
theorem listing_take {nbytes : Nat} (hnbytes : maxFileNameLength ≤ nbytes)
    (first : Nat) :
    (img.listing first).map (List.take nbytes) = img.listing first := by
  rw [Image.listing, List.map_map]
  apply List.map_congr_left
  intro i _
  apply List.take_of_length_le
  rwa [Dentry.paddedName_length]

/-- What there is to read from an entry that was opened. -/
theorem unread_opened (hwf : img.WellFormed) {name : List UInt8}
    {entry : Dentry} (hentry : img.entryNamed name = some entry)
    {text : List UInt8}
    (htext : entry.fileType = 1 ∧ text = (img.listing 0).flatten ∨
      entry.fileType = 2 ∧ text = img.content entry.inodeNum) :
    ∃ pieces, Unread img 1024
        ⟨some (fopsTable entry.fileType), 0, 1, entry.inodeNum⟩ pieces ∧
      pieces.flatten = text := by
  rcases htext with ⟨htype, rfl⟩ | ⟨htype, rfl⟩
  · rw [htype]
    refine ⟨_, .dir entry.inodeNum (Nat.zero_le _), ?_⟩
    rw [listing_take (by decide)]
  · rw [htype]
    exact unread_file (entryNamed_inode hwf hentry) (Nat.zero_le _) (by decide)

/-- There are no more pieces than bytes. -/
theorem Unread.length_le {nbytes : Nat} {desc : FileDesc}
    {pieces : List (List UInt8)} (hunread : Unread img nbytes desc pieces)
    (hnbytes : 0 < nbytes) : pieces.length ≤ pieces.flatten.length := by
  have hpos := fun piece hmem => (hunread.piece_length hnbytes piece hmem).1
  clear hunread
  induction pieces with
  | nil => exact Nat.le_refl 0
  | cons piece pieces ih =>
      have hhead := hpos piece List.mem_cons_self
      have htail := ih fun other hmem => hpos other (List.mem_cons_of_mem _ hmem)
      rw [List.flatten_cons, List.length_append, List.length_cons]
      omega

/-- `cat`, from an open file or directory on. -/
theorem catLoop_prints (hwf : img.WellFormed)
    (hbuf : FitsPage addrs.buf 1024) (hout : HasStdout sess)
    {pieces : List (List UInt8)}
    (hunread : Unread img 1024 (sess.pcb.fa 2) pieces) {turns : Nat}
    (hturns : pieces.flatten.length < turns) (mem : Memory UInt8) :
    Prints img (catLoop addrs 2 turns mem) (some 0) pieces.flatten sess := by
  have hcount := hunread.length_le (by decide)
  have hloop := @copyLoop_prints img addrs 1024 [] "file read failed\n" 2 hwf
    hbuf (by decide) (by decide) (by decide) pieces turns (by omega) sess hout
    hunread mem
  have hflat : pieces.flatMap (· ++ []) = pieces.flatten := by
    simp only [List.flatMap_def, List.append_nil, List.map_id']
  rw [hflat] at hloop
  exact hloop

/-- `cat` with a name as its argument. -/
theorem catMain_prints (hwf : img.WellFormed)
    (hbuf : FitsPage addrs.buf 1024) (hliterals : FitsPage addrs.literals 32)
    (hfresh : FreshTable sess.pcb.fa) {name : List UInt8}
    (hargs : HoldsString sess.pcb.text maxProgramNameLength name)
    (hnul : 0 ∉ name) (hlength : name.length < maxArgsLength)
    {code : Int} {text : List UInt8}
    (hshows : img.catShows name = some (code, text)) {turns : Nat}
    (hturns : text.length < turns) (mem : Memory UInt8) :
    Prints img (catMain addrs turns mem) (some code) text sess := by
  have hroom : name.length < 1024 := by
    simp only [maxArgsLength] at hlength
    omega
  apply Prints.getargs hargs hnul hlength hbuf hroom
  intro after hafter
  rw [if_neg (not_not.mpr rfl)]
  have hlookup := @readDentryByName_eq_entryNamed img _ _
    (holdsString_loaded (holdsString_storeList mem addrs.buf name) hroom) hnul
  rw [← hafter.fa_eq] at hfresh
  have hmessage : FitsPage addrs.literals
      (literal "file not found\n").length := hliterals.mono (by decide)
  rcases catShows_cases hshows with
    ⟨rfl, rfl, hmissing⟩ | ⟨rfl, entry, hentry, htext⟩
  · have hfails : ∀ dentry, img.readDentryByName (cString
        ((mem.storeList addrs.buf (name ++ [0])).load addrs.buf 1024)) =
          some dentry → 2 < dentry.fileType := by
      intro dentry hdentry
      rw [hlookup, Option.map_eq_some_iff] at hdentry
      obtain ⟨entry, hentry, rfl⟩ := hdentry
      exact hmissing entry hentry
    apply Prints.open_failed hfresh hfails
    intro opened reply hopened hret
    rw [if_pos hret]
    exact .putLiteral (hopened.hasStdout hfresh.hasStdout) hmessage _ _
  · obtain ⟨pieces, hunread, rfl⟩ := unread_opened hwf hentry htext
    rw [hentry] at hlookup
    have htype : entry.fileType ≤ 2 := by omega
    apply Prints.open_found hfresh hlookup htype
    intro opened reply hret hdesc hothers
    have hstdout : HasStdout opened := by
      rw [HasStdout, hothers 1 (by decide)]
      exact hfresh.hasStdout
    rw [if_neg (by omega), hret]
    apply catLoop_prints hwf hbuf hstdout _ hturns
    rw [hdesc]
    exact hunread

/-- `ls` in a filesystem whose first entry named `.` is the directory. -/
theorem lsMain_prints (hwf : img.WellFormed) (hbuf : FitsPage addrs.buf 33)
    (hfresh : FreshTable sess.pcb.fa) {entry : Dentry}
    (hentry : img.entryNamed (literal ".") = some entry)
    (htype : entry.fileType = 1) {turns : Nat}
    (hturns : img.numDirectoryEntries < turns) (mem : Memory UInt8) :
    Prints img (lsMain addrs turns mem) (some 0)
      ((img.listing 0).flatMap (· ++ [newline])) sess := by
  have hholds : HoldsString (cString (literal ".")) 0 (literal ".") := by
    unfold HoldsString
    decide
  have hlookup := @readDentryByName_eq_entryNamed img _ _ hholds (by decide)
  rw [List.take_of_length_le (by decide), hentry] at hlookup
  apply Prints.open_found hfresh hlookup
    (show entry.fileType ≤ 2 by omega)
  intro opened reply hret hdesc hothers
  have hstdout : HasStdout opened := by
    rw [HasStdout, hothers 1 (by decide)]
    exact hfresh.hasStdout
  have hunread : Unread img 32 (opened.pcb.fa 2) (img.listing 0) := by
    have hdir := @Unread.dir img 32 0 entry.inodeNum (Nat.zero_le _)
    rw [listing_take (by decide)] at hdir
    have hfops : fopsTable (Image.copyDentry entry).fileType = .dir :=
      congrArg fopsTable htype
    rw [hdesc, hfops]
    exact hdir
  have hentries : (img.listing 0).length < turns := by
    rwa [Image.listing, List.length_map, List.drop_zero, List.length_range]
  rw [if_neg (by omega), hret]
  exact copyLoop_prints hwf hbuf (by decide) (by decide) (by decide) hentries
    hstdout hunread mem

end Mains

end PsychOS
