/-
The descriptor table of a process as a finite map.  `open` enters the first
free descriptor, `close` removes one, and nothing else changes which
descriptors there are.  The history of the calls and their results says which
descriptors are in use.
-/
import PsychOS.DescriptorStreams
import PsychOS.UserPointers

namespace PsychOS

/-- The addresses at which a system call of a process finds a page: the page
of the process, its video page and what the kernel sees at its own address. -/
def HasPage (addr : Nat) : Prop :=
  InProcessPage addr ∨
    (getProcessVmemPage 0 ≤ addr ∧
      addr < getProcessVmemPage 0 + fourKbAligned) ∨ IdentityMapped addr

instance (addr : Nat) : Decidable (HasPage addr) :=
  inferInstanceAs (Decidable (_ ∨ (_ ∧ _) ∨ _))

theorem hasPage_iff_translation (slot vmemAddr addr : Nat) :
    HasPage addr ↔ (translation slot vmemAddr false addr).isSome := by
  rw [translation]
  split
  · exact iff_of_true (Or.inl ‹_›) rfl
  · split
    · exact iff_of_true (Or.inr (Or.inl ‹_›)) rfl
    · rename_i hprocess hvideo
      have hrest : HasPage addr ↔ IdentityMapped addr :=
        (or_iff_right hprocess).trans (or_iff_right hvideo)
      rw [hrest]
      simp

/-- A read that comes to an address without a page does not return; the
process gets an exception instead. -/
def FileEvent.Returns : FileEvent → Reply → Prop
  | .readFile _ buf _, reply =>
      ∀ addr ∈ touched buf reply.stored.length, HasPage addr
  | _, _ => True

instance (event : FileEvent) (reply : Reply) :
    Decidable (event.Returns reply) :=
  match event with
  | .readFile _ buf _ => inferInstanceAs (Decidable
      (∀ addr ∈ touched buf reply.stored.length, HasPage addr))
  | .openFile _ => isTrue trivial
  | .closeFile _ => isTrue trivial
  | .keyTyped _ _ => isTrue trivial
  | .rtcTick => isTrue trivial

/-- The file system calls with `write` among them, from whatever the memory of
the program holds. -/
inductive TableEvent where
  | call (event : FileEvent)
  | writeFile (user : Memory UInt8) (fd : Int) (buf : Nat) (nbytes : Int)

abbrev TableTransition := Transition Session TableEvent Reply

def tableStep (img : Image) : OutFn Session TableEvent Reply
  | sess, .call event =>
      (fileStep img sess event).filter fun (_, reply) => event.Returns reply
  | sess, .writeFile user fd buf nbytes =>
      let outcome := syscallWrite sess.pcb sess.tty user fd buf nbytes
      some (⟨outcome.pcb, outcome.tty⟩, ⟨outcome.ret, []⟩)

/-- What a step can be. -/
inductive TableCase (img : Image) (sess : Session) :
    TableEvent → Session → Reply → Prop where
  | openFile (name : List UInt8) :
      TableCase img sess (.call (.openFile name))
        { sess with pcb := (syscallOpen img sess.pcb (cString name)).1 }
        ⟨(syscallOpen img sess.pcb (cString name)).2, []⟩
  | closeFile (fd : Int) :
      TableCase img sess (.call (.closeFile fd))
        { sess with pcb := (syscallClose sess.pcb fd).1 }
        ⟨(syscallClose sess.pcb fd).2, []⟩
  | readFile (fd : Int) (buf : Nat) (nbytes : Int) (outcome : ReadOutcome)
      (hread : syscallRead img sess.pcb sess.tty fd buf nbytes =
        some outcome)
      (hreturns : ∀ addr ∈ touched buf outcome.stored.length, HasPage addr) :
      TableCase img sess (.call (.readFile fd buf nbytes))
        ⟨outcome.pcb, outcome.tty⟩ ⟨outcome.ret, outcome.stored⟩
  | keyTyped (terminal : Nat) (ch : UInt8) :
      TableCase img sess (.call (.keyTyped terminal ch))
        { sess with tty := (keyboardPutc sess.tty terminal ch).1 } ⟨0, []⟩
  | rtcTick :
      TableCase img sess (.call .rtcTick)
        { sess with pcb := rtcHandler sess.pcb } ⟨0, []⟩
  | writeFile (user : Memory UInt8) (fd : Int) (buf : Nat) (nbytes : Int) :
      TableCase img sess (.writeFile user fd buf nbytes)
        ⟨(syscallWrite sess.pcb sess.tty user fd buf nbytes).pcb,
          (syscallWrite sess.pcb sess.tty user fd buf nbytes).tty⟩
        ⟨(syscallWrite sess.pcb sess.tty user fd buf nbytes).ret, []⟩

theorem tableStep_cases {img : Image} {sess next : Session}
    {event : TableEvent} {reply : Reply}
    (hstep : tableStep img sess event = some (next, reply)) :
    TableCase img sess event next reply := by
  cases event with
  | writeFile user fd buf nbytes =>
      obtain ⟨rfl, rfl⟩ := Prod.mk.inj (Option.some.inj hstep)
      exact .writeFile user fd buf nbytes
  | call event =>
      obtain ⟨hcall, hreturns⟩ := Option.filter_eq_some_iff.mp hstep
      cases event with
      | openFile name =>
          obtain ⟨rfl, rfl⟩ := Prod.mk.inj (Option.some.inj hcall)
          exact .openFile name
      | closeFile fd =>
          obtain ⟨rfl, rfl⟩ := Prod.mk.inj (Option.some.inj hcall)
          exact .closeFile fd
      | readFile fd buf nbytes =>
          obtain ⟨outcome, hread, heq⟩ := Option.map_eq_some_iff.mp hcall
          obtain ⟨rfl, rfl⟩ := Prod.mk.inj heq
          exact .readFile fd buf nbytes outcome hread
            (of_decide_eq_true hreturns)
      | keyTyped terminal ch =>
          obtain ⟨rfl, rfl⟩ := Prod.mk.inj (Option.some.inj hcall)
          exact .keyTyped terminal ch
      | rtcTick =>
          obtain ⟨rfl, rfl⟩ := Prod.mk.inj (Option.some.inj hcall)
          exact .rtcTick

/-- A table with the two standard descriptors and no others. -/
structure FreshTable (table : Nat → FileDesc) : Prop where
  stdin : (table 0).inUse = true ∧ (table 0).fops = some .stdin ∧
    (table 0).filePosition = 0
  stdout : (table 1).inUse = true ∧ (table 1).fops = some .stdout ∧
    (table 1).filePosition = 0
  free : ∀ fd, 2 ≤ fd → fd < maxFileDescriptors → (table fd).inUse = false

theorem openStdinAndStdout_fresh {pcb : Pcb}
    (hfree : ∀ fd, 2 ≤ fd → fd < maxFileDescriptors →
      (pcb.fa fd).inUse = false) :
    FreshTable (openStdinAndStdout pcb).fa where
  stdin := ⟨rfl, rfl, rfl⟩
  stdout := ⟨rfl, rfl, rfl⟩
  free := by
    intro fd hlo hhi
    rw [openStdinAndStdout_other pcb hlo]
    exact hfree fd hlo hhi

/-- The standard descriptors are where they belong, and everything else in use
was opened and can be closed. -/
structure TableShape (table : Nat → FileDesc) : Prop where
  stdin : (table 0).inUse = true ∧ (table 0).fops = some .stdin
  stdout : (table 1).inUse = true ∧ (table 1).fops = some .stdout
  opened : ∀ fd, 2 ≤ fd → fd < maxFileDescriptors →
    (table fd).inUse = true →
      ∃ fops, (table fd).fops = some fops ∧ fops.hasClose = true

theorem FreshTable.shape {table : Nat → FileDesc} (hfresh : FreshTable table) :
    TableShape table where
  stdin := ⟨hfresh.stdin.1, hfresh.stdin.2.1⟩
  stdout := ⟨hfresh.stdout.1, hfresh.stdout.2.1⟩
  opened := by
    intro fd hlo hhi huse
    rw [hfresh.free fd hlo hhi] at huse
    cases huse

/-- The descriptor is in use and has the operation. -/
def Usable (table : Nat → FileDesc) (fd : Int) (has : FileOps → Bool) : Prop :=
  0 ≤ fd ∧ fd < maxFileDescriptors ∧ (table fd.toNat).inUse = true ∧
    ∃ fops, (table fd.toNat).fops = some fops ∧ has fops = true

section Shape

variable {img : Image} {pcb : Pcb}

theorem openFd_usable {fd : Int} {f : FileDesc} {fops : FileOps}
    {has : FileOps → Bool} (hopen : pcb.openFd fd = some (f, fops))
    (hhas : has fops = true) : Usable pcb.fa fd has := by
  obtain ⟨hlo, hhi, rfl, huse, hfops⟩ := openFd_inv hopen
  exact ⟨hlo, hhi, huse, fops, hfops, hhas⟩

theorem TableShape.close_target {table : Nat → FileDesc}
    (hshape : TableShape table) {fd : Int}
    (husable : Usable table fd FileOps.hasClose) : 2 ≤ fd.toNat := by
  obtain ⟨-, -, -, fops, hfops, hhas⟩ := husable
  by_contra hlow
  rcases (by omega : fd.toNat = 0 ∨ fd.toNat = 1) with hzero | hone
  · rw [hzero, hshape.stdin.2] at hfops
    rw [← Option.some.inj hfops] at hhas
    cases hhas
  · rw [hone, hshape.stdout.2] at hfops
    rw [← Option.some.inj hfops] at hhas
    cases hhas

/-- Positions do not matter to the shape. -/
theorem TableShape.congr {table other : Nat → FileDesc}
    (hshape : TableShape table)
    (hsame : ∀ fd, ∃ position,
      other fd = { table fd with filePosition := position }) :
    TableShape other := by
  have huse (fd : Nat) : (other fd).inUse = (table fd).inUse := by
    obtain ⟨position, heq⟩ := hsame fd
    rw [heq]
    rfl
  have hfops (fd : Nat) : (other fd).fops = (table fd).fops := by
    obtain ⟨position, heq⟩ := hsame fd
    rw [heq]
  refine ⟨?_, ?_, ?_⟩
  · rw [huse, hfops]
    exact hshape.stdin
  · rw [huse, hfops]
    exact hshape.stdout
  · intro fd hlo hhi
    rw [huse, hfops]
    exact hshape.opened fd hlo hhi

theorem fopsTable_hasClose (fileType : Nat) :
    (fopsTable fileType).hasClose = true := by
  unfold fopsTable
  split <;> rfl

/-- A new entry above the standard ones keeps the shape if it is free or can
be closed. -/
theorem TableShape.update {table : Nat → FileDesc} (hshape : TableShape table)
    {fd : Nat} (hfd : 2 ≤ fd) {f : FileDesc}
    (hentry : f.inUse = true →
      ∃ fops, f.fops = some fops ∧ fops.hasClose = true) :
    TableShape (Function.update table fd f) where
  stdin := by
    rw [Function.update_of_ne (by omega)]
    exact hshape.stdin
  stdout := by
    rw [Function.update_of_ne (by omega)]
    exact hshape.stdout
  opened := by
    intro other hlo hhi
    by_cases hsame : other = fd
    · rw [hsame, Function.update_self]
      exact hentry
    · rw [Function.update_of_ne hsame]
      exact hshape.opened other hlo hhi

theorem closed_not_inUse (f : FileDesc) :
    ({ f with flags := f.flags - f.flags % 2 } : FileDesc).inUse = false := by
  rw [FileDesc.inUse, beq_eq_false_iff_ne]
  dsimp only
  omega

/-- `open` never takes a standard descriptor. -/
theorem TableShape.first_free {table : Nat → FileDesc}
    (hshape : TableShape table) {fd : Nat} (hfree : (table fd).inUse = false) :
    2 ≤ fd := by
  by_contra hlow
  rcases (by omega : fd = 0 ∨ fd = 1) with rfl | rfl
  · rw [hshape.stdin.1] at hfree
    cases hfree
  · rw [hshape.stdout.1] at hfree
    cases hfree

theorem syscallOpen_shape (hshape : TableShape pcb.fa)
    (filename : Memory UInt8) :
    TableShape (syscallOpen img pcb filename).1.fa := by
  rcases syscallOpen_cases img pcb filename with
    ⟨heq, -⟩ | ⟨fd, dentry, -, hfree, -, -, -, heq⟩
  · rw [heq]
    exact hshape
  · rw [heq]
    simp only [Pcb.setFd, openHandler_fa]
    exact hshape.update (hshape.first_free hfree) fun _ =>
      ⟨_, rfl, fopsTable_hasClose _⟩

theorem syscallClose_shape (hshape : TableShape pcb.fa) (fd : Int) :
    TableShape (syscallClose pcb fd).1.fa := by
  rcases syscallClose_cases pcb fd with
    ⟨heq, -⟩ | ⟨f, fops, hopen, hclose, heq⟩
  · rw [heq]
    exact hshape
  · rw [heq]
    simp only [closeHandler_fa, Pcb.setFd]
    refine hshape.update
      (hshape.close_target (openFd_usable hopen hclose)) fun huse => ?_
    rw [closed_not_inUse] at huse
    cases huse

end Shape

/-- Whether the descriptor counts as opened after one more call. -/
def openedStep (fd : Nat) (opened : Bool) (transition : TableTransition) :
    Bool :=
  match transition.event with
  | .call (.openFile _) => opened || transition.answer.ret == (fd : Int)
  | .call (.closeFile fd') =>
      opened && !(fd' == (fd : Int) && transition.answer.ret == 0)
  | _ => opened

/-- By their results, the calls opened the descriptor and did not close it
since. -/
def openedBy (fd : Nat) (transitions : List TableTransition) : Bool :=
  transitions.foldl (openedStep fd) false

/-- The descriptor a call is about; for `open` it is the result. -/
def TableEvent.target : TableEvent → Reply → Option Int
  | .call (.openFile _), reply => some reply.ret
  | .call (.closeFile fd), _ => some fd
  | .call (.readFile fd _ _), _ => some fd
  | .call (.keyTyped _ _), _ => none
  | .call .rtcTick, _ => none
  | .writeFile _ fd _ _, _ => some fd

/-- The operation a call on a descriptor needs. -/
def TableEvent.operation : TableEvent → Option (Int × (FileOps → Bool))
  | .call (.closeFile fd) => some (fd, FileOps.hasClose)
  | .call (.readFile fd _ _) => some (fd, FileOps.hasRead)
  | .writeFile _ fd _ _ => some (fd, FileOps.hasWrite)
  | _ => none

/-- `open` succeeds when it can, with the smallest free descriptor. -/
structure OpenSpec (img : Image) (name : List UInt8)
    (before after : Nat → FileDesc) (ret : Int) : Prop where
  succeeds_iff : 0 ≤ ret ↔
    (∃ fd < maxFileDescriptors, (before fd).inUse = false) ∧
      ∃ dentry, img.readDentryByName (cString name) = some dentry ∧
        dentry.fileType ≤ 2
  failure : ret < 0 → ret = -1
  success : ∀ fd : Nat, ret = fd → 2 ≤ fd ∧ fd < maxFileDescriptors ∧
    (before fd).inUse = false ∧
    (∀ smaller < fd, (before smaller).inUse = true) ∧
    ∃ dentry, img.readDentryByName (cString name) = some dentry ∧
      after fd = ⟨some (fopsTable dentry.fileType), 0, 1, dentry.inodeNum⟩

/-- `close` succeeds on what was opened and frees it. -/
structure CloseSpec (opened : Nat → Bool) (fd : Int)
    (after : Nat → FileDesc) (ret : Int) : Prop where
  succeeds_iff : ret = 0 ↔ ∃ n : Nat, fd = n ∧ opened n = true
  failure : ret ≠ 0 → ret = -1
  standard : fd = 0 ∨ fd = 1 → ret = -1
  frees : ret = 0 → (after fd.toNat).inUse = false

/-- What one call does to a table on which `opened` are opened. -/
structure Disciplined (img : Image) (opened : Nat → Bool)
    (transition : TableTransition) : Prop where
  inUse_iff : ∀ fd < maxFileDescriptors,
    ((transition.before.pcb.fa fd).inUse = true ↔
      fd < 2 ∨ opened fd = true)
  openFile : ∀ name, transition.event = .call (.openFile name) →
    OpenSpec img name transition.before.pcb.fa transition.after.pcb.fa
      transition.answer.ret
  closeFile : ∀ fd, transition.event = .call (.closeFile fd) →
    CloseSpec opened fd transition.after.pcb.fa transition.answer.ret
  rejected : ∀ fd has, transition.event.operation = some (fd, has) →
    ¬ Usable transition.before.pcb.fa fd has → transition.answer.ret = -1
  failed : transition.answer.ret = -1 →
    transition.after.pcb.fa = transition.before.pcb.fa
  others : ∀ fd : Nat,
    transition.event.target transition.answer ≠ some (fd : Int) →
      transition.after.pcb.fa fd = transition.before.pcb.fa fd

/-- The table has its shape, and what is in use above the standard descriptors
is what was opened. -/
structure TableInv (opened : Nat → Bool) (table : Nat → FileDesc) : Prop where
  shape : TableShape table
  opened_iff : ∀ fd, opened fd = true ↔
    2 ≤ fd ∧ fd < maxFileDescriptors ∧ (table fd).inUse = true

section Discipline

variable {img : Image} {opened : Nat → Bool} {sess next : Session}
  {reply : Reply}

theorem TableInv.inUse_iff {table : Nat → FileDesc}
    (hinv : TableInv opened table) {fd : Nat}
    (hfd : fd < maxFileDescriptors) :
    (table fd).inUse = true ↔ fd < 2 ∨ opened fd = true := by
  rw [hinv.opened_iff]
  constructor
  · intro huse
    rcases Nat.lt_or_ge fd 2 with hlow | hhigh
    · exact Or.inl hlow
    · exact Or.inr ⟨hhigh, hfd, huse⟩
  · rintro (hlow | ⟨-, -, huse⟩)
    · rcases (by omega : fd = 0 ∨ fd = 1) with rfl | rfl
      · exact hinv.shape.stdin.1
      · exact hinv.shape.stdout.1
    · exact huse

/-- A table with the same descriptors in use. -/
theorem TableInv.congr {table other : Nat → FileDesc}
    (hinv : TableInv opened table)
    (hsame : ∀ fd, ∃ position,
      other fd = { table fd with filePosition := position }) :
    TableInv opened other := by
  refine ⟨hinv.shape.congr hsame, fun fd => ?_⟩
  obtain ⟨position, heq⟩ := hsame fd
  rw [hinv.opened_iff, heq]
  rfl

theorem FreshTable.inv {table : Nat → FileDesc} (hfresh : FreshTable table) :
    TableInv (fun _ => false) table := by
  refine ⟨hfresh.shape, fun fd => iff_of_false Bool.false_ne_true ?_⟩
  rintro ⟨hlo, hhi, huse⟩
  rw [hfresh.free fd hlo hhi] at huse
  cases huse

theorem syscallOpen_inv {pcb : Pcb} (hinv : TableInv opened pcb.fa)
    (filename : Memory UInt8) :
    TableInv
      (fun fd => opened fd || (syscallOpen img pcb filename).2 == (fd : Int))
      (syscallOpen img pcb filename).1.fa := by
  refine ⟨syscallOpen_shape hinv.shape filename, fun other => ?_⟩
  rcases syscallOpen_cases img pcb filename with
    ⟨heq, -⟩ | ⟨fd, dentry, hlt, hfree, -, -, -, heq⟩
  · have hne : ((-1 : Int) == (other : Int)) = false :=
      beq_eq_false_iff_ne.mpr (by omega)
    rw [heq]
    dsimp only
    rw [hne, Bool.or_false]
    exact hinv.opened_iff other
  · rw [heq]
    simp only [Pcb.setFd, openHandler_fa]
    by_cases hsame : other = fd
    · subst hsame
      rw [Function.update_self, beq_self_eq_true, Bool.or_true]
      exact iff_of_true rfl ⟨hinv.shape.first_free hfree, hlt, rfl⟩
    · have hne : ((fd : Int) == (other : Int)) = false :=
        beq_eq_false_iff_ne.mpr (by omega)
      rw [Function.update_of_ne hsame, hne, Bool.or_false]
      exact hinv.opened_iff other

theorem syscallClose_inv {pcb : Pcb} (hinv : TableInv opened pcb.fa)
    (fd : Int) :
    TableInv (fun other => opened other &&
        !(fd == (other : Int) && (syscallClose pcb fd).2 == 0))
      (syscallClose pcb fd).1.fa := by
  refine ⟨syscallClose_shape hinv.shape fd, fun other => ?_⟩
  rcases syscallClose_cases pcb fd with ⟨heq, -⟩ | ⟨f, fops, hopen, -, heq⟩
  · rw [heq]
    simp only [Int.reduceNeg, Int.reduceBEq, Bool.and_false, Bool.not_false,
      Bool.and_true]
    exact hinv.opened_iff other
  · have hnonneg := (openFd_inv hopen).1
    rw [heq]
    simp only [BEq.rfl, Bool.and_true, closeHandler_fa, Pcb.setFd]
    by_cases hsame : other = fd.toNat
    · have hfd : (fd == (other : Int)) = true := beq_iff_eq.mpr (by omega)
      rw [hfd, hsame, Function.update_self, closed_not_inUse]
      simp
    · have hfd : (fd == (other : Int)) = false :=
        beq_eq_false_iff_ne.mpr (by omega)
      rw [hfd, Function.update_of_ne hsame, Bool.not_false, Bool.and_true]
      exact hinv.opened_iff other

/-- One call keeps the invariant, with its result counted in. -/
theorem tableStep_inv {event : TableEvent} (hinv : TableInv opened sess.pcb.fa)
    (hstep : tableStep img sess event = some (next, reply)) :
    TableInv (fun fd => openedStep fd (opened fd) ⟨sess, event, reply, next⟩)
      next.pcb.fa := by
  cases tableStep_cases hstep with
  | openFile name => exact syscallOpen_inv hinv _
  | closeFile fd => exact syscallClose_inv hinv fd
  | readFile fd buf nbytes outcome hread =>
      exact hinv.congr (syscallRead_desc hread)
  | keyTyped terminal ch => exact hinv
  | rtcTick =>
      dsimp only
      rw [rtcHandler_fa]
      exact hinv
  | writeFile user fd buf nbytes =>
      dsimp only
      rw [syscallWrite_fa]
      exact hinv

/-- Along an execution the invariant holds with the history so far. -/
theorem tableRun_inv {start final : Session}
    {transitions : List TableTransition} (hfresh : FreshTable start.pcb.fa)
    (hexec : Execution (tableStep img) start transitions final) :
    TableInv (fun fd => openedBy fd transitions) final.pcb.fa := by
  induction hexec with
  | nil => exact hfresh.inv
  | concat _ hstep ih =>
      have hnext := tableStep_inv ih hstep
      simp only [openedBy, List.foldl_append, List.foldl_cons,
        List.foldl_nil] at hnext ⊢
      exact hnext

theorem syscallOpen_spec {pcb : Pcb} (hshape : TableShape pcb.fa)
    (name : List UInt8) :
    OpenSpec img name pcb.fa (syscallOpen img pcb (cString name)).1.fa
      (syscallOpen img pcb (cString name)).2 := by
  rcases syscallOpen_cases img pcb (cString name) with
    ⟨heq, hwhy⟩ | ⟨fd, dentry, hlt, hfree, hsmaller, hname, htype, heq⟩
  · rw [heq]
    refine ⟨iff_of_false (show ¬ (0 : Int) ≤ -1 by decide) ?_,
      fun _ => rfl, ?_⟩
    · rintro ⟨⟨fd, hfd, hfree⟩, dentry, hname, htype⟩
      rcases hwhy with hfull | hmissing
      · rw [hfull fd hfd] at hfree
        cases hfree
      · exact absurd (hmissing dentry hname) (Nat.not_lt_of_le htype)
    · intro fd hfd
      dsimp only at hfd
      omega
  · rw [heq]
    refine ⟨iff_of_true (Int.natCast_nonneg fd)
      ⟨⟨fd, hlt, hfree⟩, dentry, hname, htype⟩, ?_, ?_⟩
    · intro hneg
      dsimp only at hneg
      omega
    · intro other hother
      obtain rfl : fd = other := Int.ofNat.inj hother
      refine ⟨hshape.first_free hfree, hlt, hfree, hsmaller, dentry, hname, ?_⟩
      simp only [Pcb.setFd, Function.update_self]

theorem syscallClose_spec {pcb : Pcb} (hinv : TableInv opened pcb.fa)
    (fd : Int) :
    CloseSpec opened fd (syscallClose pcb fd).1.fa
      (syscallClose pcb fd).2 := by
  rcases syscallClose_cases pcb fd with
    ⟨heq, hnot⟩ | ⟨f, fops, hopen, hclose, heq⟩
  · rw [heq]
    refine ⟨iff_of_false (show ¬ (-1 : Int) = 0 by decide) ?_,
      fun _ => rfl, fun _ => rfl, ?_⟩
    · rintro ⟨n, rfl, hopened⟩
      obtain ⟨hlo, hhi, huse⟩ := (hinv.opened_iff n).mp hopened
      obtain ⟨fops, hfops, hclose⟩ := hinv.shape.opened n hlo hhi huse
      have hno := hnot _ fops (openFd_eq_some hhi huse hfops)
      rw [hclose] at hno
      cases hno
    · intro hzero
      dsimp only at hzero
      omega
  · have husable := openFd_usable hopen hclose
    have hlow := hinv.shape.close_target husable
    obtain ⟨hlo, hhi, huse, -⟩ := husable
    rw [heq]
    refine ⟨iff_of_true rfl ⟨fd.toNat, (Int.toNat_of_nonneg hlo).symm, ?_⟩,
      fun hne => absurd rfl hne, fun hstandard => by omega, fun _ => ?_⟩
    · exact (hinv.opened_iff _).mpr ⟨hlow, by omega, huse⟩
    · simp only [closeHandler_fa, Pcb.setFd, Function.update_self]
      exact closed_not_inUse f

/-- A copy of 2GB or more comes to an address without a page, behind the video
page of the process. -/
theorem copy_faults {buf count : Nat} (hbuf : processVirtPageStart ≤ buf)
    (hlt : buf < 2 ^ 32) (hcount : 2 ^ 31 ≤ count) :
    ∃ addr ∈ touched buf count, ¬ HasPage addr := by
  refine ⟨max buf 0x8401000, ?_, ?_⟩
  · refine List.mem_map.mpr ⟨max buf 0x8401000 - buf, ?_, by omega⟩
    simp only [processVirtPageStart] at hbuf
    exact List.mem_range.mpr (by omega)
  · simp only [HasPage, InProcessPage, IdentityMapped, getProcessVmemPage,
      processVirtPageStart, processPageSize, fourKbAligned, fourMbAligned,
      videoPhysAddr, pagingStructAddr]
    omega

/-- A `read` handler that returns -1 leaves the table as it was, unless it
copies 4GB less one byte. -/
theorem readHandler_failed {pcb : Pcb} {tty : Tty} {fd : Nat} {nbytes : Int}
    {fops : FileOps} {outcome : ReadOutcome}
    (hread : readHandler img pcb tty fd (pcb.fa fd) nbytes fops =
      some outcome) (hret : outcome.ret = -1) :
    outcome.pcb.fa = pcb.fa ∨ outcome.stored.length = 2 ^ 32 - 1 := by
  cases fops with
  | stdin =>
      obtain ⟨⟨bytes, after⟩, -, rfl⟩ := Option.map_eq_some_iff.mp hread
      exact Or.inl rfl
  | stdout =>
      rw [← Option.some.inj hread]
      exact Or.inl rfl
  | rtc =>
      simp only [readHandler] at hread
      split at hread
      · rw [← Option.some.inj hread]
        exact Or.inl rfl
      · obtain ⟨-, heq⟩ := Option.ite_none_left_eq_some.mp hread
        rw [← Option.some.inj heq]
        exact Or.inl rfl
  | dir =>
      simp only [readHandler, Option.some.injEq] at hread
      subst hread
      simp only [dirRead] at hret ⊢
      split at hret
      · exact absurd hret (show ¬ (0 : Int) = -1 by decide)
      · dsimp only at hret
        right
        rw [hret, Memory.load_length]
        rfl
  | file =>
      simp only [readHandler, Option.some.injEq] at hread
      subst hread
      simp only [fileRead] at hret ⊢
      split
      · exact Or.inl (Function.update_eq_self ..)
      · rename_i hnonneg
        rw [if_neg hnonneg] at hret
        dsimp only at hret
        omega

/-- A call that returns -1 leaves the table as it was. -/
theorem tableStep_failed {event : TableEvent}
    (hstep : tableStep img sess event = some (next, reply))
    (hret : reply.ret = -1) : next.pcb.fa = sess.pcb.fa := by
  cases tableStep_cases hstep with
  | openFile name =>
      rcases syscallOpen_cases img sess.pcb (cString name) with
        ⟨heq, -⟩ | ⟨fd, dentry, -, -, -, -, -, heq⟩
      · rw [heq]
      · rw [heq] at hret
        dsimp only at hret
        omega
  | closeFile fd =>
      rcases syscallClose_cases sess.pcb fd with
        ⟨heq, -⟩ | ⟨f, fops, -, -, heq⟩
      · rw [heq]
      · rw [heq] at hret
        cases hret
  | readFile fd buf nbytes outcome hread hreturns =>
      rcases syscallRead_cases hread with
        ⟨rfl, -⟩ | ⟨f, fops, hbounds, hopen, hhandler⟩
      · rfl
      · obtain ⟨-, -, rfl, -⟩ := openFd_inv hopen
        rcases readHandler_failed hhandler hret with hsame | hlength
        · exact hsame
        · simp only [inPageBounds, decide_eq_true_eq] at hbounds
          obtain ⟨addr, hmem, hno⟩ := @copy_faults buf outcome.stored.length
            hbounds.1 (by omega) (by omega)
          exact absurd (hreturns addr hmem) hno
  | keyTyped terminal ch => rfl
  | rtcTick => exact rtcHandler_fa
  | writeFile user fd buf nbytes => exact syscallWrite_fa fd

/-- A call on a descriptor that is not open or lacks the operation fails. -/
theorem tableStep_rejected {event : TableEvent} {fd : Int}
    {has : FileOps → Bool}
    (hstep : tableStep img sess event = some (next, reply))
    (hoperation : event.operation = some (fd, has))
    (hnot : ¬ Usable sess.pcb.fa fd has) : reply.ret = -1 := by
  cases tableStep_cases hstep with
  | openFile name => cases hoperation
  | keyTyped terminal ch => cases hoperation
  | rtcTick => cases hoperation
  | closeFile fd' =>
      obtain ⟨rfl, rfl⟩ := Prod.mk.inj (Option.some.inj hoperation)
      rcases syscallClose_cases sess.pcb fd' with
        ⟨heq, -⟩ | ⟨f, fops, hopen, hhas, -⟩
      · rw [heq]
      · exact absurd (openFd_usable hopen hhas) hnot
  | readFile fd' buf nbytes outcome hread =>
      obtain ⟨rfl, rfl⟩ := Prod.mk.inj (Option.some.inj hoperation)
      rcases syscallRead_cases hread with
        ⟨rfl, -⟩ | ⟨f, fops, -, hopen, hhandler⟩
      · rfl
      · cases hhas : fops.hasRead with
        | true => exact absurd (openFd_usable hopen hhas) hnot
        | false =>
            obtain rfl : fops = .stdout := by
              cases fops <;> first | rfl | cases hhas
            rw [← Option.some.inj hhandler]
  | writeFile user fd' buf nbytes =>
      obtain ⟨rfl, rfl⟩ := Prod.mk.inj (Option.some.inj hoperation)
      rcases @syscallWrite_cases sess.pcb sess.tty user buf nbytes fd' with
        ⟨heq, -⟩ | ⟨f, fops, -, hopen, hhas, -⟩
      · rw [heq]
      · exact absurd (openFd_usable hopen hhas) hnot

/-- A call changes no descriptor but the one it is about. -/
theorem tableStep_others {event : TableEvent}
    (hstep : tableStep img sess event = some (next, reply)) {fd : Nat}
    (hother : event.target reply ≠ some (fd : Int)) :
    next.pcb.fa fd = sess.pcb.fa fd := by
  cases tableStep_cases hstep with
  | openFile name =>
      rcases syscallOpen_cases img sess.pcb (cString name) with
        ⟨heq, -⟩ | ⟨idx, dentry, -, -, -, -, -, heq⟩
      · rw [heq]
      · have hne : fd ≠ idx := by
          rintro rfl
          rw [heq] at hother
          exact hother rfl
        rw [heq]
        simp only [Pcb.setFd, openHandler_fa, Function.update_of_ne hne]
  | closeFile fd' =>
      apply syscallClose_other
      rintro rfl
      exact hother rfl
  | readFile fd' buf nbytes outcome hread =>
      apply syscallRead_other _ hread
      rintro rfl
      exact hother rfl
  | keyTyped terminal ch => rfl
  | rtcTick => exact congrFun rtcHandler_fa fd
  | writeFile user fd' buf nbytes => exact congrFun (syscallWrite_fa fd') fd

theorem tableStep_disciplined {event : TableEvent}
    (hinv : TableInv opened sess.pcb.fa)
    (hstep : tableStep img sess event = some (next, reply)) :
    Disciplined img opened ⟨sess, event, reply, next⟩ where
  inUse_iff := fun _ hfd => hinv.inUse_iff hfd
  openFile := by
    rintro name rfl
    cases tableStep_cases hstep
    exact syscallOpen_spec hinv.shape name
  closeFile := by
    rintro fd rfl
    cases tableStep_cases hstep
    exact syscallClose_spec hinv fd
  rejected := fun _ _ hoperation hnot =>
    tableStep_rejected hstep hoperation hnot
  failed := tableStep_failed hstep
  others := fun _ hother => tableStep_others hstep hother

end Discipline

/-- From a table with only the standard descriptors, after any sequence of
calls the descriptors in use are the standard ones and those the results say
are opened, and every call does to the table what it should. -/
theorem descriptor_table_discipline {img : Image} {start final : Session}
    {transitions : List TableTransition} (hfresh : FreshTable start.pcb.fa)
    (hexec : Execution (tableStep img) start transitions final) :
    (∀ fd < maxFileDescriptors, ((final.pcb.fa fd).inUse = true ↔
        fd < 2 ∨ openedBy fd transitions = true)) ∧
      ∀ (i : Nat) (transition : TableTransition),
        transitions[i]? = some transition →
          Disciplined img (fun fd => openedBy fd (transitions.take i))
            transition := by
  refine ⟨fun fd hfd => (tableRun_inv hfresh hexec).inUse_iff hfd, ?_⟩
  intro i transition hget
  have hbefore := tableRun_inv hfresh (hexec.take_of_getElem? hget)
  have hmem : transition ∈ transitions := List.mem_of_getElem? hget
  exact tableStep_disciplined hbefore (hexec.step_of_mem hmem)

/-- Two opens, a close of the first, a close of the standard input, and an open
that takes the freed descriptor again. -/
def reopenEvents : List TableEvent :=
  [.call (.openFile [97]), .call (.openFile [46]), .call (.closeFile 2),
    .call (.closeFile 0), .call (.readFile 3 0x8000000 32),
    .call (.openFile [97])]

theorem reopened_table_discipline : ∃ transitions final,
    trace (tableStep sampleImage) ⟨samplePcb, Tty.zeroed⟩ reopenEvents =
        some (transitions, final) ∧
      transitions.map (fun transition => transition.answer.ret) =
        [2, 3, 0, -1, 32, 2] ∧
      (∀ fd < maxFileDescriptors, ((final.pcb.fa fd).inUse = true ↔
        fd < 2 ∨ openedBy fd transitions = true)) := by
  have hrets : (trace (tableStep sampleImage) ⟨samplePcb, Tty.zeroed⟩
      reopenEvents).map (fun result =>
        result.1.map fun transition => transition.answer.ret) =
      some [2, 3, 0, -1, 32, 2] := by decide +kernel
  obtain ⟨⟨transitions, final⟩, htrace, heq⟩ :=
    Option.map_eq_some_iff.mp hrets
  have hfresh : FreshTable samplePcb.fa :=
    openStdinAndStdout_fresh fun _ _ _ => rfl
  exact ⟨transitions, final, htrace, heq,
    (descriptor_table_discipline hfresh (trace_execution htrace).1).1⟩

end PsychOS
