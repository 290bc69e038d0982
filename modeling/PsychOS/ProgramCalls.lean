/-
The system calls as a user program meets them.  A program is a tree of calls,
its memory is its own, and between two of its calls the rest of the system may
do what it likes as long as the process keeps its descriptors and its
arguments.  Each call has a rule that says what a program prints that begins
with it.
-/
import PsychOS.Arguments
import PsychOS.Grep
import PsychOS.DirectoryLookup
import PsychOS.Lib.Programs

namespace PsychOS

/-- The system calls of a program. -/
inductive ProgramCall where
  | file (event : TableEvent)
  | getargs (buf : Nat) (nbytes : Int)

def programStep (img : Image) : OutFn Session ProgramCall Reply
  | sess, .file event => tableStep img sess event
  | sess, .getargs buf nbytes =>
      ((syscallGetargs sess.pcb buf nbytes).map fun (ret, stored) =>
        (sess, (⟨ret, stored⟩ : Reply))).filter fun (_, reply) =>
          ∀ addr ∈ touched buf reply.stored.length, HasPage addr

abbrev Program := Prog ProgramCall Reply

/-- What a process can rely on between two of its calls. -/
structure Session.Kept (sess met : Session) : Prop where
  fa_eq : met.pcb.fa = sess.pcb.fa
  text_eq : met.pcb.text = sess.pcb.text

/-- What an exchange printed. -/
def printedBy (exchange : Exchange ProgramCall Reply) : List UInt8 :=
  match exchange.request with
  | .file (.writeFile user fd buf nbytes) =>
      if fd = 1 ∧ exchange.reply.ret ≠ -1 then loadUser user buf nbytes.toNat
      else []
  | _ => []

/-- What a program printed. -/
def printed (log : List (Exchange ProgramCall Reply)) : List UInt8 :=
  log.flatMap printedBy

section Source

def ece391Open (name : List UInt8) : Program Reply :=
  .ask (.file (.call (.openFile name)))

def ece391Read (fd : Int) (buf : Nat) (nbytes : Int) : Program Reply :=
  .ask (.file (.call (.readFile fd buf nbytes)))

def ece391Write (mem : Memory UInt8) (fd : Int) (buf : Nat) (nbytes : Int) :
    Program Reply :=
  .ask (.file (.writeFile mem fd buf nbytes))

def ece391Getargs (buf : Nat) (nbytes : Int) : Program Reply :=
  .ask (.getargs buf nbytes)

/-- `ece391_fdputs` of a literal that lies at `addr`. -/
def putLiteral (mem : Memory UInt8) (addr : Nat) (text : String) :
    Program Reply :=
  ece391Write (mem.storeList addr (literal text ++ [0])) 1 addr
    (literal text).length

end Source

/-- The names in the directory, each padded to 32 bytes, from entry `first`
on. -/
def Image.listing (img : Image) (first : Nat) : List (List UInt8) :=
  ((List.range img.numDirectoryEntries).drop first).map fun i =>
    (img.directoryEntries i).paddedName

/-- A descriptor of a file or of the directory, and the pieces in which reads
of `nbytes` bytes still hand it out. -/
inductive Unread (img : Image) (nbytes : Nat) :
    FileDesc → List (List UInt8) → Prop where
  | fileEnd {inode : Nat} (hinode : inode < img.numInodes) :
      Unread img nbytes ⟨some .file, img.fileLength inode, 1, inode⟩ []
  | fileMore {position inode : Nat} {pieces : List (List UInt8)}
      (hinode : inode < img.numInodes)
      (hmore : position < img.fileLength inode)
      (hrest : Unread img nbytes ⟨some .file, position +
        (((img.content inode).drop position).take nbytes).length, 1, inode⟩
        pieces) :
      Unread img nbytes ⟨some .file, position, 1, inode⟩
        (((img.content inode).drop position).take nbytes :: pieces)
  | dir {position : Nat} (inode : Nat)
      (hposition : position ≤ img.numDirectoryEntries) :
      Unread img nbytes ⟨some .dir, position, 1, inode⟩
        ((img.listing position).map (List.take nbytes))

/-- So many bytes from the address on lie in the page of the process. -/
def FitsPage (addr count : Nat) : Prop :=
  processVirtPageStart ≤ addr ∧
    addr < processVirtPageStart + processPageSize ∧
    addr + count ≤ processVirtPageStart + processPageSize

instance (addr count : Nat) : Decidable (FitsPage addr count) :=
  inferInstanceAs (Decidable (_ ∧ _ ∧ _))

section Calls

variable {img : Image} {sess : Session} {addr count : Nat}

theorem FitsPage.legal (hfits : FitsPage addr count) (fd : Int) :
    (FileEvent.readFile fd addr count).Legal :=
  ⟨Int.natCast_nonneg count, hfits.1, hfits.2.1, hfits.2.2⟩

theorem FitsPage.mono {fewer : Nat} (hfits : FitsPage addr count)
    (hle : fewer ≤ count) : FitsPage addr fewer :=
  ⟨hfits.1, hfits.2.1, Nat.le_trans (Nat.add_le_add_left hle addr) hfits.2.2⟩

theorem FitsPage.touched_hasPage (hfits : FitsPage addr count) {bytes : Nat}
    (hle : bytes ≤ count) : ∀ a ∈ touched addr bytes, HasPage a := by
  intro a ha
  obtain ⟨i, hi, rfl⟩ := List.mem_map.mp ha
  have hlt := List.mem_range.mp hi
  obtain ⟨hlo, -, hhi⟩ := hfits
  left
  simp only [InProcessPage, processVirtPageStart, processPageSize] at *
  omega

/-- The user's memory in the page of the process is read as it is. -/
theorem FitsPage.loadUser_eq (hfits : FitsPage addr count)
    (user : Memory UInt8) : loadUser user addr count = user.load addr count := by
  apply List.map_congr_left
  intro i hi
  have hlt := List.mem_range.mp hi
  obtain ⟨-, -, hhi⟩ := hfits
  simp only [processVirtPageStart, processPageSize] at hhi
  rw [Nat.mod_eq_of_lt (by omega)]

/-- The standard output is in its place. -/
def HasStdout (sess : Session) : Prop :=
  (sess.pcb.fa 1).inUse = true ∧ (sess.pcb.fa 1).fops = some .stdout

/-- A write to the standard output prints the bytes. -/
theorem programStep_write (hout : HasStdout sess) (hfits : FitsPage addr count)
    (user : Memory UInt8) :
    ∃ next, programStep img sess (.file (.writeFile user 1 addr count)) =
        some (next, ⟨count, []⟩) ∧ next.pcb = sess.pcb ∧
      printedBy ⟨.file (.writeFile user 1 addr count), ⟨count, []⟩⟩ =
        user.load addr count := by
  have hopen : sess.pcb.openFd 1 = some (sess.pcb.fa 1, .stdout) :=
    openFd_eq_some (show 1 < maxFileDescriptors by decide) hout.1 hout.2
  have hwrite : syscallWrite sess.pcb sess.tty user 1 addr count =
      ⟨sess.pcb, terminalWrite sess.tty sess.pcb.terminalNum
        (loadUser user addr count), count, loadUser user addr count⟩ := by
    rw [syscallWrite, inPageBounds_of_legal (hfits.legal 1), hopen]
    exact if_neg Bool.false_ne_true
  refine ⟨⟨sess.pcb, terminalWrite sess.tty sess.pcb.terminalNum
    (loadUser user addr count)⟩, ?_, rfl, ?_⟩
  · rw [programStep, tableStep, hwrite]
  · have hprints : (1 : Int) = 1 ∧ (count : Int) ≠ -1 := ⟨rfl, by omega⟩
    show (if (1 : Int) = 1 ∧ (count : Int) ≠ -1 then
      loadUser user addr (count : Int).toNat else []) = _
    rw [if_pos hprints, Int.toNat_natCast, hfits.loadUser_eq]

/-- What a read leaves of the other descriptors and of the texts. -/
theorem readFile_frame {next : Session} {reply : Reply} {fd : Nat}
    {buf : Nat} {nbytes : Int}
    (hstep : fileStep img sess (.readFile fd buf nbytes) =
      some (next, reply)) :
    (∀ other, other ≠ fd → next.pcb.fa other = sess.pcb.fa other) ∧
      next.pcb.text = sess.pcb.text := by
  obtain ⟨outcome, houtcome, heq⟩ := Option.map_eq_some_iff.mp hstep
  obtain ⟨rfl, -⟩ := Prod.mk.inj heq
  constructor
  · intro other hne
    exact syscallRead_other (by omega) houtcome
  · obtain ⟨position, ticks, hpcb⟩ := syscallRead_pcb houtcome
    dsimp only
    rw [hpcb]
    rfl

/-- The listing from one entry on. -/
theorem listing_of_lt {first : Nat} (hlt : first < img.numDirectoryEntries) :
    img.listing first = (img.directoryEntries first).paddedName ::
      img.listing (first + 1) := by
  have hlength : first < (List.range img.numDirectoryEntries).length := by
    rwa [List.length_range]
  rw [Image.listing, List.drop_eq_getElem_cons hlength, List.map_cons,
    List.getElem_range]
  rfl

theorem listing_of_ge {first : Nat} (hge : img.numDirectoryEntries ≤ first) :
    img.listing first = [] := by
  rw [Image.listing, List.drop_eq_nil_of_le (by rwa [List.length_range])]
  rfl

/-- A call that stores no more than fits returns. -/
theorem programStep_readFile {next : Session} {reply : Reply} {fd : Nat}
    (hfits : FitsPage addr count)
    (hstep : fileStep img sess (.readFile fd addr count) =
      some (next, reply)) (hstored : reply.stored.length ≤ count) :
    programStep img sess (.file (.call (.readFile fd addr count))) =
      some (next, reply) := by
  rw [programStep, tableStep, hstep, Option.filter_some, if_pos]
  exact decide_eq_true (hfits.touched_hasPage hstored)

/-- A read on a file or the directory does not wait. -/
theorem Unread.reads {fd : Nat} {pieces : List (List UInt8)}
    (hunread : Unread img count (sess.pcb.fa fd) pieces)
    (hfd : fd < maxFileDescriptors) (hfits : FitsPage addr count) :
    ∃ next reply, fileStep img sess (.readFile fd addr count) =
      some (next, reply) := by
  have hlegal := hfits.legal fd
  generalize hdesc : sess.pcb.fa fd = desc at hunread
  cases hunread with
  | fileEnd hinode | fileMore hinode hmore hrest | dir inode hposition =>
      rw [fileStep, syscallRead_handler hfd hdesc rfl hlegal]
      exact ⟨_, _, rfl⟩

/-- A read hands out the next piece, or nothing at the end. -/
theorem Unread.stored (hwf : img.WellFormed) {fd : Nat}
    {pieces : List (List UInt8)} {next : Session} {reply : Reply}
    (hunread : Unread img count (sess.pcb.fa fd) pieces)
    (hfd : fd < maxFileDescriptors) (hfits : FitsPage addr count)
    (hstep : fileStep img sess (.readFile fd addr count) =
      some (next, reply)) :
    reply.stored = pieces.headD [] ∧ reply.ret = reply.stored.length ∧
      Unread img count (next.pcb.fa fd) pieces.tail := by
  have hlegal := hfits.legal fd
  generalize hdesc : sess.pcb.fa fd = desc at hunread
  cases hunread with
  | @fileEnd inode hinode =>
      obtain ⟨hstored, hret, hfa⟩ := fileStep_readFile hwf hinode
        (Nat.le_refl _) hfd hdesc hlegal hstep
      have hnone : (img.content inode).drop (img.fileLength inode) = [] := by
        rw [List.drop_eq_nil_iff, Image.content, Memory.load_length]
      rw [hnone, List.take_nil] at hstored
      rw [hstored] at hfa
      refine ⟨hstored, hret, ?_⟩
      rw [hfa]
      exact .fileEnd hinode
  | @fileMore position inode pieces hinode hmore hrest =>
      obtain ⟨hstored, hret, hfa⟩ := fileStep_readFile hwf hinode
        (Nat.le_of_lt hmore) hfd hdesc hlegal hstep
      rw [Int.toNat_natCast] at hstored
      refine ⟨hstored, hret, ?_⟩
      rw [hfa, hstored]
      exact hrest
  | @dir position inode hposition =>
      have hread := fileStep_readDir hwf hposition hfd hdesc hlegal hstep
      rw [Int.toNat_natCast] at hread
      split at hread
      · rename_i hlt
        obtain ⟨hstored, hret, hfa⟩ := hread
        have hlength := (img.directoryEntries position).paddedName_length
        have hcut : (img.directoryEntries position).paddedName.take
            (min maxFileNameLength count) =
            (img.directoryEntries position).paddedName.take count := by
          rw [Nat.min_comm, ← List.take_take, ← hlength, List.take_length]
        rw [listing_of_lt hlt]
        refine ⟨hstored.trans hcut, ?_, ?_⟩
        · rw [hret, hstored, List.length_take, hlength, Nat.min_right_comm,
            Nat.min_self]
        · rw [hfa]
          exact .dir inode hlt
      · rename_i hend
        obtain ⟨hstored, hret, hfa⟩ := hread
        have hsame := @Unread.dir img count position inode hposition
        rw [listing_of_ge (Nat.le_of_not_lt hend)] at hsame ⊢
        refine ⟨hstored, by rw [hret, hstored]; rfl, ?_⟩
        rw [hfa]
        exact hsame

/-- No piece is empty or longer than a read. -/
theorem Unread.piece_length {desc : FileDesc} {pieces : List (List UInt8)}
    (hunread : Unread img count desc pieces) (hcount : 0 < count) :
    ∀ piece ∈ pieces, 0 < piece.length ∧ piece.length ≤ count := by
  induction hunread with
  | fileEnd hinode => exact fun piece hmem => nomatch hmem
  | @fileMore position inode pieces hinode hmore hrest ih =>
      intro piece hmem
      rcases List.mem_cons.mp hmem with rfl | hlater
      · rw [List.length_take, List.length_drop, Image.content,
          Memory.load_length]
        omega
      · exact ih piece hlater
  | @dir position inode hposition =>
      intro piece hmem
      obtain ⟨padded, hpadded, rfl⟩ := List.mem_map.mp hmem
      obtain ⟨i, -, rfl⟩ := List.mem_map.mp hpadded
      rw [List.length_take, Dentry.paddedName_length, maxFileNameLength]
      omega

/-- The pieces of a file make up its content. -/
theorem unread_file {inode position : Nat} (hinode : inode < img.numInodes)
    (hposition : position ≤ img.fileLength inode) (hcount : 0 < count) :
    ∃ pieces, Unread img count ⟨some .file, position, 1, inode⟩ pieces ∧
      pieces.flatten = (img.content inode).drop position := by
  have hlength : (img.content inode).length = img.fileLength inode := by
    rw [Image.content, Memory.load_length]
  -- each piece moves the position on, so the bytes left bound the induction
  induction hleft : img.fileLength inode - position using Nat.strong_induction_on
    generalizing position with
  | _ left ih =>
  rcases Nat.lt_or_eq_of_le hposition with hmore | rfl
  · have hpiece : (((img.content inode).drop position).take count).length =
        min count (img.fileLength inode - position) := by
      rw [List.length_take, List.length_drop, hlength]
    obtain ⟨pieces, hunread, hflat⟩ := @ih
      (img.fileLength inode - (position +
        (((img.content inode).drop position).take count).length))
      (by omega) (position +
        (((img.content inode).drop position).take count).length)
      (by omega) rfl
    refine ⟨_, .fileMore hinode hmore hunread, ?_⟩
    rw [List.flatten_cons, hflat, ← List.drop_drop]
    exact List.prefix_iff_eq_append.mp (List.take_prefix _ _)
  · exact ⟨[], .fileEnd hinode,
      (List.drop_eq_nil_of_le (Nat.le_of_eq hlength)).symm⟩

/-- A read makes the first piece the bytes stored and leaves everything but
its descriptor alone. -/
theorem programStep_read (hwf : img.WellFormed) {fd : Nat}
    {pieces : List (List UInt8)}
    (hunread : Unread img count (sess.pcb.fa fd) pieces)
    (hfd : fd < maxFileDescriptors) (hfits : FitsPage addr count)
    (hcount : 0 < count) :
    ∃ next reply,
      programStep img sess (.file (.call (.readFile fd addr count))) =
        some (next, reply) ∧
      reply.stored = pieces.headD [] ∧ reply.ret = (pieces.headD []).length ∧
      Unread img count (next.pcb.fa fd) pieces.tail ∧
      (∀ other, other ≠ fd → next.pcb.fa other = sess.pcb.fa other) ∧
      next.pcb.text = sess.pcb.text := by
  obtain ⟨next, reply, hstep⟩ := hunread.reads hfd hfits
  obtain ⟨hstored, hret, hrest⟩ := hunread.stored hwf hfd hfits hstep
  have hlength : reply.stored.length ≤ count := by
    rw [hstored]
    cases pieces with
    | nil => exact Nat.zero_le count
    | cons piece pieces =>
        exact (hunread.piece_length hcount piece List.mem_cons_self).2
  exact ⟨next, reply, programStep_readFile hfits hstep hlength, hstored,
    hstored ▸ hret, hrest, readFile_frame hstep⟩

/-- `getargs` hands over the arguments and their terminator. -/
theorem programStep_getargs {args : List UInt8}
    (hargs : HoldsString sess.pcb.text maxProgramNameLength args)
    (hnul : 0 ∉ args) (hlength : args.length < maxArgsLength)
    (hfits : FitsPage addr count) (hroom : args.length < count) :
    programStep img sess (.getargs addr count) =
      some (sess, ⟨0, args ++ [0]⟩) := by
  have hsmall : (count : Int) < 2 ^ 31 := by
    have hcount := hfits.2.2
    simp only [processVirtPageStart, processPageSize] at hcount
    omega
  have hstored : (args ++ [0]).length ≤ count := by
    rw [List.length_append]
    exact hroom
  have hget := syscallGetargs_eq hargs hnul hlength
    (show InProcessPage addr from ⟨hfits.1, hfits.2.1⟩)
    (Int.natCast_nonneg count) hsmall
  rw [if_pos (Int.ofNat_lt.mpr hroom)] at hget
  rw [programStep, hget, Option.map_some, Option.filter_some, if_pos]
  exact decide_eq_true (hfits.touched_hasPage hstored)

/-- A process with its standard descriptors alone opens number 2. -/
theorem FreshTable.syscallOpen_eq {pcb : Pcb} (hfresh : FreshTable pcb.fa)
    (filename : Memory UInt8) :
    syscallOpen img pcb filename =
      match img.readDentryByName filename with
      | none => (pcb, -1)
      | some dentry =>
          if dentry.fileType > 2 then (pcb, -1)
          else ((openHandler pcb (fopsTable dentry.fileType)).setFd 2
            ⟨some (fopsTable dentry.fileType), 0, 1, dentry.inodeNum⟩, 2) := by
  have hfree : (List.range maxFileDescriptors).find?
      (fun idx => !(pcb.fa idx).inUse) = some 2 := by
    rw [List.find?_range_eq_some]
    refine ⟨?_, by decide, ?_⟩
    · rw [hfresh.free 2 (Nat.le_refl 2) (by decide)]
      rfl
    · intro smaller hlt
      rw [Bool.not_not]
      rcases Nat.lt_succ_iff_lt_or_eq.mp hlt with hzero | rfl
      · obtain rfl := Nat.lt_one_iff.mp hzero
        exact hfresh.stdin.1
      · exact hfresh.stdout.1
  rw [syscallOpen, hfree]
  rfl

end Calls

/-- Whatever the rest of the system does between its calls, the program comes
to an end with the value and has printed the text. -/
def Prints {α : Type} (img : Image) (prog : Program α) (value : α)
    (text : List UInt8) (sess : Session) : Prop :=
  prog.Ends (programStep img) Session.Kept
    (fun result _ log => result = value ∧ printed log = text) sess

section Rules

variable {α : Type} {img : Image} {sess : Session} {addr count : Nat}
  {value : α} {text : List UInt8} {rest : Reply → Program α}

theorem Session.Kept.trans {met later : Session} (hkept : sess.Kept met)
    (hlater : met.Kept later) : sess.Kept later :=
  ⟨hlater.fa_eq.trans hkept.fa_eq, hlater.text_eq.trans hkept.text_eq⟩

theorem Session.Kept.hasStdout {met : Session} (hkept : sess.Kept met)
    (hout : HasStdout sess) : HasStdout met := by
  rw [HasStdout, hkept.fa_eq]
  exact hout

theorem Prints.pure (value : α) (sess : Session) :
    Prints img (pure value) value [] sess :=
  ⟨rfl, rfl⟩

/-- A call that prints nothing itself. -/
theorem Prints.silent {request : ProgramCall}
    (hsilent : ∀ reply, printedBy ⟨request, reply⟩ = [])
    (hcall : ∀ met, sess.Kept met → ∃ after reply,
      programStep img met request = some (after, reply) ∧
        Prints img (rest reply) value text after) :
    Prints img (Prog.ask request >>= rest) value text sess := by
  apply Prog.Ends.ask_bind
  intro met hmet
  obtain ⟨after, reply, hstep, hrest⟩ := hcall met hmet
  refine ⟨after, reply, hstep, hrest.mono ?_⟩
  rintro result final log ⟨hresult, hlog⟩
  refine ⟨hresult, ?_⟩
  rw [printed, List.flatMap_cons, hsilent, List.nil_append]
  exact hlog

theorem Prints.write {mem : Memory UInt8} {bytes : List UInt8}
    (hout : HasStdout sess) (hfits : FitsPage addr bytes.length)
    (hload : mem.load addr bytes.length = bytes)
    (hrest : ∀ (after : Session) (reply : Reply), sess.Kept after →
      reply.ret = bytes.length → Prints img (rest reply) value text after) :
    Prints img (ece391Write mem 1 addr bytes.length >>= rest) value
      (bytes ++ text) sess := by
  apply Prog.Ends.ask_bind
  intro met hmet
  obtain ⟨after, hstep, hafter, hprints⟩ :=
    @programStep_write img met _ _ (hmet.hasStdout hout) hfits mem
  have hkept : met.Kept after := ⟨by rw [hafter], by rw [hafter]⟩
  refine ⟨after, _, hstep, (hrest after _ (hmet.trans hkept) rfl).mono ?_⟩
  rintro result final log ⟨hresult, hlog⟩
  refine ⟨hresult, ?_⟩
  rw [printed, List.flatMap_cons, hprints, hload]
  exact congrArg _ hlog

/-- A message goes out with everything it has. -/
theorem Prints.putLiteral (hout : HasStdout sess) {message : String}
    (hfits : FitsPage addr (literal message).length) (mem : Memory UInt8)
    (value : α) :
    Prints img (do let _ ← putLiteral mem addr message; return value) value
      (literal message) sess := by
  have hload := (holdsString_storeList mem addr (literal message)).load_eq
  have hwrite := @Prints.write α img sess addr value [] (fun _ => return value)
    _ _ hout hfits hload fun after _ _ _ => .pure value after
  rwa [List.append_nil] at hwrite

theorem Prints.read (hwf : img.WellFormed) {fd : Nat}
    {pieces : List (List UInt8)}
    (hunread : Unread img count (sess.pcb.fa fd) pieces)
    (hfd : fd < maxFileDescriptors) (hfits : FitsPage addr count)
    (hcount : 0 < count)
    (hrest : ∀ (after : Session) (reply : Reply),
      reply.stored = pieces.headD [] →
      reply.ret = (pieces.headD []).length →
      Unread img count (after.pcb.fa fd) pieces.tail →
      (∀ other, other ≠ fd → after.pcb.fa other = sess.pcb.fa other) →
      Prints img (rest reply) value text after) :
    Prints img (ece391Read fd addr count >>= rest) value text sess := by
  apply Prints.silent fun reply => rfl
  intro met hmet
  rw [← hmet.fa_eq] at hunread
  obtain ⟨after, reply, hstep, hstored, hret, hlater, hothers, -⟩ :=
    programStep_read hwf hunread hfd hfits hcount
  refine ⟨after, reply, hstep, hrest after reply hstored hret hlater ?_⟩
  intro other hne
  rw [hothers other hne, hmet.fa_eq]

theorem Prints.getargs {args : List UInt8}
    (hargs : HoldsString sess.pcb.text maxProgramNameLength args)
    (hnul : 0 ∉ args) (hlength : args.length < maxArgsLength)
    (hfits : FitsPage addr count) (hroom : args.length < count)
    (hrest : ∀ after : Session, sess.Kept after →
      Prints img (rest ⟨0, args ++ [0]⟩) value text after) :
    Prints img (ece391Getargs addr count >>= rest) value text sess := by
  apply Prints.silent fun reply => rfl
  intro met hmet
  rw [← hmet.text_eq] at hargs
  exact ⟨met, _, programStep_getargs hargs hnul hlength hfits hroom,
    hrest met hmet⟩

theorem FreshTable.hasStdout (hfresh : FreshTable sess.pcb.fa) :
    HasStdout sess :=
  ⟨hfresh.stdout.1, hfresh.stdout.2.1⟩

theorem Prints.open_failed (hfresh : FreshTable sess.pcb.fa)
    {name : List UInt8}
    (hmissing : ∀ dentry, img.readDentryByName (cString name) = some dentry →
      2 < dentry.fileType)
    (hrest : ∀ (after : Session) (reply : Reply), sess.Kept after →
      reply.ret = -1 → Prints img (rest reply) value text after) :
    Prints img (ece391Open name >>= rest) value text sess := by
  apply Prints.silent fun reply => rfl
  intro met hmet
  rw [← hmet.fa_eq] at hfresh
  have hopen : syscallOpen img met.pcb (cString name) = (met.pcb, -1) := by
    rw [hfresh.syscallOpen_eq]
    cases hname : img.readDentryByName (cString name) with
    | none => rfl
    | some dentry => exact if_pos (hmissing dentry hname)
  refine ⟨met, ⟨-1, []⟩, ?_, hrest met _ hmet rfl⟩
  rw [programStep, tableStep, fileStep, hopen]
  rfl

theorem Prints.open_found (hfresh : FreshTable sess.pcb.fa)
    {name : List UInt8} {dentry : Dentry}
    (hfound : img.readDentryByName (cString name) = some dentry)
    (htype : dentry.fileType ≤ 2)
    (hrest : ∀ (after : Session) (reply : Reply), reply.ret = 2 →
      after.pcb.fa 2 =
        ⟨some (fopsTable dentry.fileType), 0, 1, dentry.inodeNum⟩ →
      (∀ other, other ≠ 2 → after.pcb.fa other = sess.pcb.fa other) →
      Prints img (rest reply) value text after) :
    Prints img (ece391Open name >>= rest) value text sess := by
  apply Prints.silent fun reply => rfl
  intro met hmet
  rw [← hmet.fa_eq] at hfresh hrest
  have hopen := @FreshTable.syscallOpen_eq img _ hfresh (cString name)
  rw [hfound] at hopen
  dsimp only at hopen
  rw [if_neg (Nat.not_lt.mpr htype)] at hopen
  refine ⟨{ met with pcb := (syscallOpen img met.pcb (cString name)).1 },
    ⟨(syscallOpen img met.pcb (cString name)).2, []⟩, rfl, ?_⟩
  rw [hopen]
  apply hrest
  · rfl
  · simp only [Pcb.setFd, Function.update_self]
  · intro other hother
    simp only [Pcb.setFd, openHandler_fa, Function.update_of_ne hother]

end Rules

end PsychOS
