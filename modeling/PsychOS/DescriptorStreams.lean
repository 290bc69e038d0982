/-
Descriptors as streams.  A process opens, closes and reads while keys are
typed and the clock ticks; whatever else happens, the reads on one descriptor
hand out the content of its file piece by piece, or the names in the directory
one by one.
-/
import PsychOS.Lib.Chunks
import PsychOS.Lib.Execution
import PsychOS.DescriptorCalls
import PsychOS.FileContents

namespace PsychOS

/-- One process and the terminals. -/
structure Session where
  pcb : Pcb
  tty : Tty

/-- The system calls of the process, and what lets a waiting read go on. -/
inductive FileEvent where
  | openFile (name : List UInt8)
  | closeFile (fd : Int)
  | readFile (fd : Int) (buf : Nat) (nbytes : Int)
  | keyTyped (terminal : Nat) (ch : UInt8)
  | rtcTick
  deriving DecidableEq

/-- The result of a call and the bytes it stored. -/
structure Reply where
  ret : Int
  stored : List UInt8
  deriving DecidableEq

/-- The part of `rtc_handler` that concerns one process. -/
def rtcHandler (pcb : Pcb) : Pcb :=
  if pcb.inUse ∧ pcb.rtcEnabled ∧ pcb.remainingRtcTicks > 0 then
    { pcb with remainingRtcTicks := pcb.remainingRtcTicks - 1 }
  else pcb

def fileStep (img : Image) : OutFn Session FileEvent Reply
  | sess, .openFile name =>
      let (pcb, ret) := syscallOpen img sess.pcb (cString name)
      some ({ sess with pcb := pcb }, ⟨ret, []⟩)
  | sess, .closeFile fd =>
      let (pcb, ret) := syscallClose sess.pcb fd
      some ({ sess with pcb := pcb }, ⟨ret, []⟩)
  | sess, .readFile fd buf nbytes =>
      (syscallRead img sess.pcb sess.tty fd buf nbytes).map fun outcome =>
        (⟨outcome.pcb, outcome.tty⟩, ⟨outcome.ret, outcome.stored⟩)
  | sess, .keyTyped terminal ch =>
      some ({ sess with tty := (keyboardPutc sess.tty terminal ch).1 },
        ⟨0, []⟩)
  | sess, .rtcTick =>
      some ({ sess with pcb := rtcHandler sess.pcb }, ⟨0, []⟩)

/-- Reads ask for a number of bytes that fits a buffer in the process page. -/
def FileEvent.Legal : FileEvent → Prop
  | .readFile _ buf nbytes =>
      0 ≤ nbytes ∧ processVirtPageStart ≤ buf ∧
        buf < processVirtPageStart + processPageSize ∧
        buf + nbytes.toNat ≤ processVirtPageStart + processPageSize
  | _ => True

instance (event : FileEvent) : Decidable event.Legal :=
  match event with
  | .readFile _ _ _ => inferInstanceAs (Decidable (_ ∧ _ ∧ _ ∧ _))
  | .openFile _ => isTrue trivial
  | .closeFile _ => isTrue trivial
  | .keyTyped _ _ => isTrue trivial
  | .rtcTick => isTrue trivial

/-- A read on the descriptor, with its result. -/
structure FileRead where
  nbytes : Nat
  ret : Int
  stored : List UInt8

abbrev FileTransition := Transition Session FileEvent Reply

def readOf (fd : Nat) (transition : FileTransition) : Option FileRead :=
  match transition.event with
  | .readFile fd' _ nbytes =>
      if fd' = fd then
        some ⟨nbytes.toNat, transition.answer.ret, transition.answer.stored⟩
      else none
  | _ => none

/-- The reads made on a descriptor, in order. -/
def readsOf (fd : Nat) (transitions : List FileTransition) : List FileRead :=
  transitions.filterMap (readOf fd)

/-- The bytes the reads handed out, put together. -/
def streamOf (reads : List FileRead) : List UInt8 :=
  reads.flatMap FileRead.stored

def FileRead.chunk (read : FileRead) : Chunk UInt8 := ⟨read.nbytes, read.stored⟩

section Descriptors

variable {img : Image} {pcb : Pcb}

theorem legal_count {fd : Int} {buf : Nat} {nbytes : Int}
    (hlegal : (FileEvent.readFile fd buf nbytes).Legal) :
    toUint32 nbytes = nbytes.toNat ∧ nbytes.toNat < 2 ^ 31 := by
  obtain ⟨hnonneg, hlo, hhi, hfits⟩ := hlegal
  simp only [processVirtPageStart, processPageSize] at hlo hhi hfits
  refine ⟨?_, by omega⟩
  rw [toUint32, Int.emod_eq_of_lt hnonneg (by omega)]

theorem inPageBounds_of_legal {fd : Int} {buf : Nat} {nbytes : Int}
    (hlegal : (FileEvent.readFile fd buf nbytes).Legal) :
    inPageBounds buf nbytes = true := by
  have hcount := (legal_count hlegal).1
  obtain ⟨hnonneg, hlo, hhi, hfits⟩ := hlegal
  simp only [processVirtPageStart, processPageSize] at hlo hhi hfits
  simp only [inPageBounds, hcount, processVirtPageStart, processPageSize,
    decide_eq_true_eq]
  omega

@[simp]
theorem rtcHandler_fa : (rtcHandler pcb).fa = pcb.fa := by
  unfold rtcHandler
  split
  · rfl
  · rfl

/-- Only reading or closing a descriptor changes it. -/
theorem fileStep_frame {sess next : Session} {answer : Reply}
    {event : FileEvent} {fd : Nat} (huse : (sess.pcb.fa fd).inUse = true)
    (hclose : event ≠ .closeFile fd)
    (hread : ∀ buf nbytes, event ≠ .readFile fd buf nbytes)
    (hstep : fileStep img sess event = some (next, answer)) :
    next.pcb.fa fd = sess.pcb.fa fd := by
  cases event with
  | openFile name =>
      obtain ⟨rfl, -⟩ := Prod.mk.inj (Option.some.inj hstep)
      exact syscallOpen_other huse
  | closeFile fd' =>
      obtain ⟨rfl, -⟩ := Prod.mk.inj (Option.some.inj hstep)
      apply syscallClose_other
      rintro rfl
      exact hclose rfl
  | readFile fd' buf nbytes =>
      obtain ⟨outcome, houtcome, heq⟩ := Option.map_eq_some_iff.mp hstep
      obtain ⟨rfl, -⟩ := Prod.mk.inj heq
      apply syscallRead_other _ houtcome
      rintro rfl
      exact hread buf nbytes rfl
  | keyTyped terminal ch =>
      obtain ⟨rfl, -⟩ := Prod.mk.inj (Option.some.inj hstep)
      rfl
  | rtcTick =>
      obtain ⟨rfl, -⟩ := Prod.mk.inj (Option.some.inj hstep)
      exact congrFun rtcHandler_fa fd

/-- A descriptor stays open until it is closed. -/
theorem fileStep_inUse {sess next : Session} {answer : Reply}
    {event : FileEvent} {fd : Nat} (huse : (sess.pcb.fa fd).inUse = true)
    (hclose : event ≠ .closeFile fd)
    (hstep : fileStep img sess event = some (next, answer)) :
    (next.pcb.fa fd).inUse = true := by
  by_cases hread : ∃ buf nbytes, event = .readFile fd buf nbytes
  · obtain ⟨buf, nbytes, rfl⟩ := hread
    obtain ⟨outcome, houtcome, heq⟩ := Option.map_eq_some_iff.mp hstep
    obtain ⟨rfl, -⟩ := Prod.mk.inj heq
    obtain ⟨position, hdesc⟩ := syscallRead_desc houtcome fd
    rw [hdesc]
    exact huse
  · have hother : ∀ buf nbytes, event ≠ .readFile fd buf nbytes :=
      fun buf nbytes heq => hread ⟨buf, nbytes, heq⟩
    rw [fileStep_frame huse hclose hother hstep]
    exact huse

/-- A legal read on an open descriptor gets to its handler. -/
theorem syscallRead_handler {tty : Tty} {fd buf : Nat} {nbytes : Int}
    {fops : FileOps} {position inode : Nat} (hfd : fd < maxFileDescriptors)
    (hfa : pcb.fa fd = ⟨some fops, position, 1, inode⟩)
    (hhas : fops.hasRead = true)
    (hlegal : (FileEvent.readFile fd buf nbytes).Legal) :
    syscallRead img pcb tty fd buf nbytes =
      readHandler img pcb tty fd ⟨some fops, position, 1, inode⟩ nbytes
        fops := by
  have hopen := openFd_eq_some hfd (by rw [hfa]; rfl) (by rw [hfa])
  simp only [syscallRead, inPageBounds_of_legal hlegal, hopen, hhas, hfa,
    Bool.not_true, Bool.false_eq_true, ↓reduceIte, Int.toNat_natCast]

/-- A read on a file hands out the next piece of its content and moves the
position behind it. -/
theorem fileStep_readFile (hwf : img.WellFormed) {sess next : Session}
    {answer : Reply} {fd buf : Nat} {nbytes : Int} {position inode : Nat}
    (hinode : inode < img.numInodes)
    (hposition : position ≤ img.fileLength inode)
    (hfd : fd < maxFileDescriptors)
    (hfa : sess.pcb.fa fd = ⟨some .file, position, 1, inode⟩)
    (hlegal : (FileEvent.readFile fd buf nbytes).Legal)
    (hstep : fileStep img sess (.readFile fd buf nbytes) =
      some (next, answer)) :
    answer.stored = ((img.content inode).drop position).take nbytes.toNat ∧
      answer.ret = answer.stored.length ∧
      next.pcb.fa fd =
        ⟨some .file, position + answer.stored.length, 1, inode⟩ := by
  obtain ⟨hcount, hsmall⟩ := legal_count hlegal
  have hmax := hwf.fileLength_le inode hinode
  simp only [fsBlockSize] at hmax
  obtain ⟨outcome, houtcome, heq⟩ := Option.map_eq_some_iff.mp hstep
  rw [syscallRead_handler hfd hfa rfl hlegal] at houtcome
  have hdata := readData_eq hwf hinode hposition hsmall
  rw [← hcount] at hdata
  simp only [readHandler, fileRead, hdata, Option.some.injEq] at houtcome
  have hnonneg : ¬ ((min (toUint32 nbytes)
      (img.fileLength inode - position) : Nat) : Int) < 0 := by omega
  rw [if_neg hnonneg] at houtcome
  obtain ⟨rfl, rfl⟩ := Prod.mk.inj heq
  subst houtcome
  have hpiece := Memory.load_drop_take (img.byteAt inode) 0
    (img.fileLength inode) position nbytes.toNat
  rw [Nat.zero_add] at hpiece
  rw [Image.content, hpiece, hcount]
  refine ⟨rfl, ?_, ?_⟩
  · simp
  · have hnowrap : (position + min nbytes.toNat
        (img.fileLength inode - position)) % 2 ^ 32 =
        position + min nbytes.toNat (img.fileLength inode - position) := by
      omega
    simp only [Pcb.setFd, Function.update_self, Memory.load_length,
      Int.toNat_natCast, hnowrap]

/-- A read on a directory hands out the name at its position. -/
theorem fileStep_readDir (hwf : img.WellFormed) {sess next : Session}
    {answer : Reply} {fd buf : Nat} {nbytes : Int} {position inode : Nat}
    (hposition : position ≤ img.numDirectoryEntries)
    (hfd : fd < maxFileDescriptors)
    (hfa : sess.pcb.fa fd = ⟨some .dir, position, 1, inode⟩)
    (hlegal : (FileEvent.readFile fd buf nbytes).Legal)
    (hstep : fileStep img sess (.readFile fd buf nbytes) =
      some (next, answer)) :
    if position < img.numDirectoryEntries then
      answer.stored = (img.directoryEntries position).paddedName.take
          (min maxFileNameLength nbytes.toNat) ∧
        answer.ret = ((min maxFileNameLength nbytes.toNat : Nat) : Int) ∧
        next.pcb.fa fd = ⟨some .dir, position + 1, 1, inode⟩
    else
      answer.stored = [] ∧ answer.ret = 0 ∧
        next.pcb.fa fd = ⟨some .dir, position, 1, inode⟩ := by
  obtain ⟨hcount, hsmall⟩ := legal_count hlegal
  have hnonneg : 0 ≤ nbytes := hlegal.1
  have hmax := hwf.numDirectoryEntries_le
  obtain ⟨outcome, houtcome, heq⟩ := Option.map_eq_some_iff.mp hstep
  rw [syscallRead_handler hfd hfa rfl hlegal] at houtcome
  obtain ⟨rfl, rfl⟩ := Prod.mk.inj heq
  simp only [readHandler, Option.some.injEq] at houtcome
  subst houtcome
  by_cases hmore : position < img.numDirectoryEntries
  · have hnot : ¬ position ≥ img.numDirectoryEntries := by omega
    have hnumber : (if (maxFileNameLength : Int) > nbytes then nbytes
        else maxFileNameLength) =
        ((min maxFileNameLength nbytes.toNat : Nat) : Int) := by
      simp only [maxFileNameLength]
      split <;> omega
    have hunsigned : toUint32
        ((min maxFileNameLength nbytes.toNat : Nat) : Int) =
        min maxFileNameLength nbytes.toNat := by
      simp only [maxFileNameLength, toUint32]
      omega
    have hnowrap : (position + 1) % 2 ^ 32 = position + 1 := by omega
    simp only [dirRead, Image.readDentryByIndex, hmore, hnot, ↓reduceIte,
      hnumber, hunsigned, hnowrap, Pcb.setFd, Function.update_self,
      copyDentry_load _ (Nat.min_le_left _ _), and_self]
  · have hend : position ≥ img.numDirectoryEntries := by omega
    simp only [dirRead, Image.readDentryByIndex, hmore, hend, ↓reduceIte,
      Pcb.setFd, Function.update_self, and_self]

end Descriptors

section Streams

variable {img : Image} {opened final : Session} {fd inode : Nat}
  {transitions : List FileTransition}

/-- The event reads the descriptor, or its read list stays as it is. -/
theorem readOf_cases (fd : Nat) (transition : FileTransition) :
    (∃ buf nbytes, transition.event = .readFile fd buf nbytes ∧
        readOf fd transition = some ⟨nbytes.toNat, transition.answer.ret,
          transition.answer.stored⟩) ∨
      ((∀ buf nbytes, transition.event ≠ .readFile fd buf nbytes) ∧
        readOf fd transition = none) := by
  unfold readOf
  cases hevent : transition.event with
  | readFile fd' buf nbytes =>
      by_cases hfd : fd' = fd
      · subst hfd
        exact Or.inl ⟨buf, nbytes, rfl, if_pos rfl⟩
      · refine Or.inr ⟨?_, if_neg hfd⟩
        intro buf' nbytes' heq
        injection heq with hsame
        exact hfd hsame
  | openFile name => exact Or.inr ⟨by simp, rfl⟩
  | closeFile fd' => exact Or.inr ⟨by simp, rfl⟩
  | keyTyped terminal ch => exact Or.inr ⟨by simp, rfl⟩
  | rtcTick => exact Or.inr ⟨by simp, rfl⟩

theorem readsOf_concat_read {transition : FileTransition} {read : FileRead}
    (hread : readOf fd transition = some read) :
    readsOf fd (transitions ++ [transition]) =
      readsOf fd transitions ++ [read] := by
  simp [readsOf, hread]

theorem readsOf_concat_other {transition : FileTransition}
    (hread : readOf fd transition = none) :
    readsOf fd (transitions ++ [transition]) = readsOf fd transitions := by
  simp [readsOf, hread]

/-- The calls on the other descriptors and on this one are as the theorems
below ask: legal, and none closes this one. -/
def KeepsOpen (fd : Nat) (transitions : List FileTransition) : Prop :=
  ∀ transition ∈ transitions,
    transition.event.Legal ∧ transition.event ≠ .closeFile fd

theorem KeepsOpen.concat {transition : FileTransition}
    (hkept : KeepsOpen fd (transitions ++ [transition])) :
    KeepsOpen fd transitions ∧ transition.event.Legal ∧
      transition.event ≠ .closeFile fd :=
  ⟨fun other hother => hkept other (List.mem_append_left _ hother),
    hkept transition (by simp)⟩

/-- What a run of calls makes of a descriptor opened on a file. -/
theorem file_stream (hwf : img.WellFormed) (hinode : inode < img.numInodes)
    (hfd : fd < maxFileDescriptors)
    (hopened : opened.pcb.fa fd = ⟨some .file, 0, 1, inode⟩)
    (hexec : Execution (fileStep img) opened transitions final)
    (hkept : KeepsOpen fd transitions) :
    Delivers (img.content inode)
        ((readsOf fd transitions).map FileRead.chunk) ∧
      (∀ read ∈ readsOf fd transitions, read.ret = read.stored.length) ∧
      final.pcb.fa fd = ⟨some .file,
        (delivered ((readsOf fd transitions).map FileRead.chunk)).length, 1,
        inode⟩ := by
  induction hexec with
  | nil => exact ⟨delivers_nil, by simp [readsOf], hopened⟩
  | @concat transitions sess next event answer _ hstep ih =>
      obtain ⟨hkept, hlegal, hclose⟩ := hkept.concat
      obtain ⟨hdelivers, hrets, hfa⟩ := ih hkept
      rcases readOf_cases fd ⟨sess, event, answer, next⟩ with
        ⟨buf, nbytes, hevent, hread⟩ | ⟨hother, hread⟩
      · obtain rfl : event = .readFile fd buf nbytes := hevent
        have hposition : (delivered ((readsOf fd transitions).map
            FileRead.chunk)).length ≤ img.fileLength inode := by
          rw [hdelivers.eq_take]
          simp [Image.content]
        obtain ⟨hstored, hret, hnext⟩ := fileStep_readFile hwf hinode
          hposition hfd hfa hlegal hstep
        rw [readsOf_concat_read hread]
        simp only [List.map_append, List.map_cons, List.map_nil]
        refine ⟨hdelivers.concat hstored, ?_, ?_⟩
        · intro read hmem
          rcases List.mem_append.mp hmem with hold | hnew
          · exact hrets read hold
          · rw [List.mem_singleton.mp hnew]
            exact hret
        · rw [hnext]
          simp [FileRead.chunk]
      · have huse : (sess.pcb.fa fd).inUse = true := by
          rw [hfa]
          rfl
        rw [readsOf_concat_other hread,
          fileStep_frame huse hclose hother hstep]
        exact ⟨hdelivers, hrets, hfa⟩

/-- What the `i`-th read on a directory hands out. -/
def DirectoryRead (img : Image) (i : Nat) (read : FileRead) : Prop :=
  if i < img.numDirectoryEntries then
    read.stored = (img.directoryEntries i).paddedName.take
        (min maxFileNameLength read.nbytes) ∧
      read.ret = ((min maxFileNameLength read.nbytes : Nat) : Int)
  else read.stored = [] ∧ read.ret = 0

/-- What a run of calls makes of a descriptor opened on the directory. -/
theorem directory_stream (hwf : img.WellFormed)
    (hfd : fd < maxFileDescriptors)
    (hopened : opened.pcb.fa fd = ⟨some .dir, 0, 1, inode⟩)
    (hexec : Execution (fileStep img) opened transitions final)
    (hkept : KeepsOpen fd transitions) :
    (∀ i read, (readsOf fd transitions)[i]? = some read →
        DirectoryRead img i read) ∧
      final.pcb.fa fd = ⟨some .dir,
        min (readsOf fd transitions).length img.numDirectoryEntries, 1,
        inode⟩ := by
  induction hexec with
  | nil => exact ⟨by simp [readsOf], by simpa [readsOf] using hopened⟩
  | @concat transitions sess next event answer _ hstep ih =>
      obtain ⟨hkept, hlegal, hclose⟩ := hkept.concat
      obtain ⟨hreads, hfa⟩ := ih hkept
      rcases readOf_cases fd ⟨sess, event, answer, next⟩ with
        ⟨buf, nbytes, hevent, hread⟩ | ⟨hother, hread⟩
      · obtain rfl : event = .readFile fd buf nbytes := hevent
        have hdir := fileStep_readDir hwf (Nat.min_le_right _ _) hfd hfa
          hlegal hstep
        -- the new read is number `reads.length`, where the position stands
        -- until the names run out
        have hnew : DirectoryRead img (readsOf fd transitions).length
              ⟨nbytes.toNat, answer.ret, answer.stored⟩ ∧
            next.pcb.fa fd = ⟨some .dir,
              min ((readsOf fd transitions).length + 1)
                img.numDirectoryEntries, 1, inode⟩ := by
          unfold DirectoryRead
          by_cases hmore :
              (readsOf fd transitions).length < img.numDirectoryEntries
          · rw [Nat.min_eq_left (Nat.le_of_lt hmore), if_pos hmore] at hdir
            rw [if_pos hmore, Nat.min_eq_left hmore]
            exact ⟨⟨hdir.1, hdir.2.1⟩, hdir.2.2⟩
          · have hend := Nat.le_of_not_lt hmore
            rw [Nat.min_eq_right hend, if_neg (Nat.lt_irrefl _)] at hdir
            rw [if_neg hmore, Nat.min_eq_right (Nat.le_succ_of_le hend)]
            exact ⟨⟨hdir.1, hdir.2.1⟩, hdir.2.2⟩
        rw [readsOf_concat_read hread]
        refine ⟨?_, ?_⟩
        · intro i read hget
          rcases Nat.lt_or_ge i (readsOf fd transitions).length with hlt | hge
          · rw [List.getElem?_append_left hlt] at hget
            exact hreads i read hget
          · rw [List.getElem?_append_right hge,
              List.getElem?_singleton] at hget
            obtain ⟨hzero, hsame⟩ := Option.ite_none_right_eq_some.mp hget
            obtain rfl : i = (readsOf fd transitions).length := by omega
            rw [← Option.some.inj hsame]
            exact hnew.1
        · rw [List.length_append, List.length_singleton]
          exact hnew.2
      · have huse : (sess.pcb.fa fd).inUse = true := by
          rw [hfa]
          rfl
        rw [readsOf_concat_other hread,
          fileStep_frame huse hclose hother hstep]
        exact ⟨hreads, hfa⟩

/-- While a descriptor is kept open, only its own reads change it. -/
theorem descriptor_frame (huse : (opened.pcb.fa fd).inUse = true)
    (hexec : Execution (fileStep img) opened transitions final)
    (hkept : KeepsOpen fd transitions) :
    (final.pcb.fa fd).inUse = true ∧
      ∀ transition ∈ transitions,
        (∀ buf nbytes, transition.event ≠ .readFile fd buf nbytes) →
          transition.after.pcb.fa fd = transition.before.pcb.fa fd := by
  induction hexec with
  | nil => exact ⟨huse, by simp⟩
  | concat _ hstep ih =>
      obtain ⟨hkept, -, hclose⟩ := hkept.concat
      obtain ⟨huse, hframe⟩ := ih hkept
      refine ⟨fileStep_inUse huse hclose hstep, ?_⟩
      intro transition hmem hother
      rcases List.mem_append.mp hmem with hold | hnew
      · exact hframe transition hold hother
      · obtain rfl := List.mem_singleton.mp hnew
        exact fileStep_frame huse hclose hother hstep

theorem delivered_chunks (reads : List FileRead) :
    delivered (reads.map FileRead.chunk) = streamOf reads := by
  rw [delivered, List.flatMap_map]
  rfl

/-- What the chunks of a file say about the reads themselves. -/
theorem file_stream_reads {content : List UInt8} {reads : List FileRead}
    (hdelivers : Delivers content (reads.map FileRead.chunk))
    (hrets : ∀ read ∈ reads, read.ret = read.stored.length)
    {before after : List FileRead} {read : FileRead}
    (hsplit : reads = before ++ read :: after) (hasked : 0 < read.nbytes) :
    (read.ret = 0 ↔ streamOf before = content) ∧
      (read.ret = 0 → ∀ later ∈ after, later.ret = 0) := by
  have hbytes := delivered_chunks before
  rw [hsplit, List.map_append, List.map_cons] at hdelivers
  have hempty := hdelivers.got_eq_nil_iff hasked
  rw [hbytes] at hempty
  have hret : read.ret = read.stored.length :=
    hrets read (by simp [hsplit])
  have hzero : read.ret = 0 ↔ streamOf before = content := by
    rw [hret, ← hempty]
    exact Int.natCast_eq_zero.trans List.length_eq_zero_iff
  refine ⟨hzero, ?_⟩
  intro hend later hlater
  have hgot := hdelivers.got_after_end (hbytes.trans (hzero.mp hend))
    (List.mem_map_of_mem hlater)
  have hlaterRet : later.ret = later.stored.length :=
    hrets later (by simp [hsplit, hlater])
  rw [hlaterRet]
  exact Int.natCast_eq_zero.mpr (congrArg List.length hgot)

/-- The reads on a descriptor from its opening on, in any interleaving with
other calls that does not close it.  On a file they hand out the content in
order, `file_position` counts the bytes, and an empty read means the end; on
the directory the `i`-th read hands out the `i`-th name.  Calls on other
descriptors leave the descriptor as it is. -/
theorem reads_follow_stream (hwf : img.WellFormed) {start : Session}
    {name : List UInt8}
    (hopen : fileStep img start (.openFile name) =
      some (opened, ⟨(fd : Int), []⟩))
    (hexec : Execution (fileStep img) opened transitions final)
    (hkept : KeepsOpen fd transitions) :
    ∃ entry, img.readDentryByName (cString name) = some entry ∧
      (fopsTable entry.fileType = .file →
        streamOf (readsOf fd transitions) <+: img.content entry.inodeNum ∧
          (final.pcb.fa fd).filePosition =
            (streamOf (readsOf fd transitions)).length ∧
          ∀ before read after,
            readsOf fd transitions = before ++ read :: after →
            read.ret = read.stored.length ∧
            (0 < read.nbytes →
              (read.ret = 0 ↔
                streamOf before = img.content entry.inodeNum) ∧
              (read.ret = 0 → ∀ later ∈ after, later.ret = 0))) ∧
      (fopsTable entry.fileType = .dir →
        ∀ i read, (readsOf fd transitions)[i]? = some read →
          DirectoryRead img i read) ∧
      ∀ transition ∈ transitions,
        (∀ buf nbytes, transition.event ≠ .readFile fd buf nbytes) →
          transition.after.pcb.fa fd = transition.before.pcb.fa fd := by
  have hstep : fileStep img start (.openFile name) =
      some ({ start with pcb := (syscallOpen img start.pcb (cString name)).1 },
        ⟨(syscallOpen img start.pcb (cString name)).2, []⟩) := rfl
  rw [hstep] at hopen
  obtain ⟨hsess, hreply⟩ := Prod.mk.inj (Option.some.inj hopen)
  have hret : (syscallOpen img start.pcb (cString name)).2 = (fd : Int) :=
    congrArg Reply.ret hreply
  obtain ⟨entry, hentry, -, hfd, -, hpcb⟩ := syscallOpen_success
    (Prod.ext rfl hret : syscallOpen img start.pcb (cString name) =
      ((syscallOpen img start.pcb (cString name)).1, (fd : Int)))
  have hopened : opened.pcb.fa fd =
      ⟨some (fopsTable entry.fileType), 0, 1, entry.inodeNum⟩ := by
    rw [← hsess]
    simp only [hpcb, Pcb.setFd, Function.update_self]
  have hinode : entry.inodeNum < img.numInodes := by
    obtain ⟨i, hi, rfl⟩ := Option.map_eq_some_iff.mp hentry
    exact hwf.inode_lt i (List.mem_range.mp (List.mem_of_find?_eq_some hi))
  refine ⟨entry, hentry, ?_, ?_, ?_⟩
  · intro hfile
    rw [hfile] at hopened
    obtain ⟨hdelivers, hrets, hfa⟩ :=
      file_stream hwf hinode hfd hopened hexec hkept
    have hbytes := delivered_chunks (readsOf fd transitions)
    refine ⟨?_, ?_, ?_⟩
    · rw [← hbytes, hdelivers.eq_take]
      exact List.take_prefix _ _
    · rw [hfa, hbytes]
    · intro before read after hsplit
      refine ⟨hrets read (by simp [hsplit]), ?_⟩
      intro hasked
      exact file_stream_reads hdelivers hrets hsplit hasked
  · intro hdir
    rw [hdir] at hopened
    exact (directory_stream hwf hfd hopened hexec hkept).1
  · exact (descriptor_frame (by rw [hopened]; rfl) hexec hkept).2

/-- An image with the directory itself and one file of three bytes. -/
def sampleImage : Image where
  numDirectoryEntries := 2
  numInodes := 1
  numDataBlocks := 1
  directoryEntries := fun i =>
    if i = 0 then ⟨cString [46], 1, 0, fun _ => 0⟩
    else ⟨cString [97], 2, 0, fun _ => 0⟩
  fileLength := fun _ => 3
  dataBlocks := fun _ _ => 0
  data := fun _ => cString [120, 121, 122]

theorem sampleImage_wellFormed : sampleImage.WellFormed where
  numDirectoryEntries_le := by decide
  inode_lt := by decide
  fileLength_le := by decide
  block_lt := by
    intro inode _ i hi
    exact Nat.one_pos

/-- Two reads of two bytes with another open in between. -/
def sampleFileEvents : List FileEvent :=
  [.readFile (0 : Nat) 0x8000000 2, .openFile [46],
    .readFile (0 : Nat) 0x8000000 2]

theorem twoReads_follow_stream : ∃ opened transitions final,
    fileStep sampleImage ⟨Pcb.zeroed, Tty.zeroed⟩ (.openFile [97]) =
        some (opened, ⟨((0 : Nat) : Int), []⟩) ∧
      Execution (fileStep sampleImage) opened transitions final ∧
      (readsOf 0 transitions).map FileRead.stored = [[120, 121], [122]] ∧
      streamOf (readsOf 0 transitions) <+: sampleImage.content 0 := by
  have hopen : fileStep sampleImage ⟨Pcb.zeroed, Tty.zeroed⟩
      (.openFile [97]) = some (_, ⟨((0 : Nat) : Int), []⟩) := rfl
  have hreads : (trace (fileStep sampleImage)
      ⟨(syscallOpen sampleImage Pcb.zeroed (cString [97])).1, Tty.zeroed⟩
      sampleFileEvents).map (fun result =>
        (readsOf 0 result.1).map FileRead.stored) =
      some [[120, 121], [122]] := by decide
  obtain ⟨⟨transitions, final⟩, htrace, hstored⟩ :=
    Option.map_eq_some_iff.mp hreads
  obtain ⟨hexec, -⟩ := trace_execution htrace
  have hkept : KeepsOpen 0 transitions := by
    intro transition hmem
    have hevent := trace_event_mem htrace hmem
    simp only [sampleFileEvents, List.mem_cons, List.not_mem_nil, or_false]
      at hevent
    rcases hevent with h | h | h
    · rw [h]
      exact ⟨by decide, by decide⟩
    · rw [h]
      exact ⟨trivial, by decide⟩
    · rw [h]
      exact ⟨by decide, by decide⟩
  obtain ⟨entry, hentry, hfile, -⟩ :=
    reads_follow_stream sampleImage_wellFormed hopen hexec hkept
  obtain rfl := Option.some.inj hentry
  exact ⟨_, transitions, final, hopen, hexec, hstored, (hfile rfl).1⟩

end Streams

end PsychOS
