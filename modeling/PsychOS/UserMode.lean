/-
Programs in user mode.  A program can store to its own page and draw on the
screens, and the kernel keeps the rest from it: the entry point and the page of
a root program are changed by no one else.
-/
import PsychOS.CommandFields
import PsychOS.ProgramLoading
import PsychOS.Keyboard
import PsychOS.SlotReuse

namespace PsychOS

/-- The entry point, and of the standard descriptors what `open_stdin_and_stdout`
does not set. -/
structure Pcb.SameProgram (pcb next : Pcb) : Prop where
  entrypoint_eq : next.entrypoint = pcb.entrypoint
  inode_eq : ∀ fd < 2, (next.fa fd).inode = (pcb.fa fd).inode

namespace Pcb.SameProgram

theorem refl (pcb : Pcb) : pcb.SameProgram pcb := ⟨rfl, fun _ _ => rfl⟩

theorem trans {pcb next last : Pcb} (hfirst : pcb.SameProgram next)
    (hsecond : next.SameProgram last) : pcb.SameProgram last :=
  ⟨hsecond.entrypoint_eq.trans hfirst.entrypoint_eq, fun fd hfd =>
    (hsecond.inode_eq fd hfd).trans (hfirst.inode_eq fd hfd)⟩

theorem update (pcb : Nat → Pcb) {changed : Nat} {new : Pcb}
    (hnew : (pcb changed).SameProgram new) (slot : Nat) :
    (pcb slot).SameProgram (Function.update pcb changed new slot) := by
  by_cases hslot : slot = changed
  · rw [hslot, Function.update_self]
    exact hnew
  · rw [Function.update_of_ne hslot]
    exact refl _

end Pcb.SameProgram

section Calls

theorem Pcb.SameProcess.entrypoint_eq {pcb next : Pcb}
    (hsame : pcb.SameProcess next) : next.entrypoint = pcb.entrypoint := by
  rw [hsame]

theorem syscallClose_sameProgram (pcb : Pcb) (fd : Int) :
    pcb.SameProgram (syscallClose pcb fd).1 := by
  refine ⟨(syscallClose_sameProcess pcb fd).entrypoint_eq, fun other _ => ?_⟩
  rcases syscallClose_cases pcb fd with ⟨heq, -⟩ | ⟨f, fops, hopen, -, heq⟩
  · rw [heq]
  · obtain ⟨-, -, rfl, -, -⟩ := openFd_inv hopen
    rw [heq]
    simp only [closeHandler_fa, Pcb.setFd]
    by_cases hsame : other = fd.toNat
    · rw [hsame, Function.update_self]
    · rw [Function.update_of_ne hsame]

theorem closeDescriptors_sameProgram (pcb : Pcb) :
    pcb.SameProgram (closeDescriptors pcb) := by
  unfold closeDescriptors
  induction List.range maxFileDescriptors generalizing pcb with
  | nil => exact .refl pcb
  | cons fd rest ih => exact (syscallClose_sameProgram pcb fd).trans (ih _)

theorem openStdinAndStdout_sameProgram (pcb : Pcb) :
    pcb.SameProgram (openStdinAndStdout pcb) := by
  refine ⟨rfl, fun fd hfd => ?_⟩
  rcases (by omega : fd = 0 ∨ fd = 1) with rfl | rfl <;> rfl

theorem rtcHandler_sameProgram (pcb : Pcb) :
    pcb.SameProgram (rtcHandler pcb) := by
  unfold rtcHandler
  split <;> exact ⟨rfl, fun _ _ => rfl⟩

theorem tableStep_sameProgram {img : Image} {sess after : Session}
    {event : TableEvent} {reply : Reply} (hshape : TableShape sess.pcb.fa)
    (hstep : tableStep img sess event = some (after, reply)) :
    sess.pcb.SameProgram after.pcb := by
  refine ⟨(tableStep_sameProcess hstep).entrypoint_eq, fun fd hfd => ?_⟩
  cases tableStep_cases hstep with
  | openFile name =>
      rcases syscallOpen_cases img sess.pcb (cString name) with
        ⟨heq, -⟩ | ⟨free, dentry, -, hfree, -, -, -, heq⟩
      · rw [heq]
      · have hne : fd ≠ free := by
          rintro rfl
          rcases (by omega : fd = 0 ∨ fd = 1) with rfl | rfl
          · rw [hshape.stdin.1] at hfree
            cases hfree
          · rw [hshape.stdout.1] at hfree
            cases hfree
        rw [heq]
        simp only [Pcb.setFd, Function.update_of_ne hne]
        cases fopsTable dentry.fileType <;> rfl
  | closeFile closed => exact (syscallClose_sameProgram _ closed).inode_eq fd hfd
  | readFile source buf nbytes outcome hread =>
      obtain ⟨position, hdesc⟩ := syscallRead_desc hread fd
      dsimp only
      rw [hdesc]
  | keyTyped terminal ch => rfl
  | rtcTick => exact (rtcHandler_sameProgram _).inode_eq fd hfd
  | writeFile user target buf nbytes =>
      obtain ⟨interval, hpcb⟩ :=
        @syscallWrite_pcb sess.pcb sess.tty user buf nbytes target
      dsimp only
      rw [hpcb]

end Calls

section Steps

variable {img : Image} {layout : Layout} {k next : Kernel}

theorem haltProgram_sameProgram (k : Kernel) (status : Int) (slot : Nat) :
    (k.pcb slot).SameProgram ((haltProgram layout k status).1.pcb slot) := by
  have hreleased : (k.pcb slot).SameProgram
      ((release k k.current).pcb slot) := by
    rw [release_pcb]
    refine .update k.pcb ?_ slot
    have hclosed := closeDescriptors_sameProgram
      { k.pcb k.current with inUse := false }
    exact ⟨hclosed.entrypoint_eq, hclosed.inode_eq⟩
  refine hreleased.trans ?_
  unfold haltProgram
  dsimp only
  split
  · rw [restartProgram_pcb]
    refine .update (release k k.current).pcb ?_ slot
    have hopened := openStdinAndStdout_sameProgram
      ((release k k.current).pcb k.current)
    exact ⟨rfl, hopened.inode_eq⟩
  · obtain ⟨moved, hmoved⟩ := returnToParent_pcb (release k k.current)
      k.current _ status slot
    rw [hmoved]
    exact ⟨rfl, fun _ _ => rfl⟩

theorem syscallExecute_sameProgram {command : List UInt8} {esp ebp : Nat}
    {junk : Junk} {outcome : Outcome}
    (hcurrent : (k.pcb k.current).inUse = true)
    (hcall : syscallExecute img layout k command esp ebp junk =
      (next, outcome))
    {slot : Nat} (huse : (k.pcb slot).inUse = true) :
    (k.pcb slot).SameProgram (next.pcb slot) := by
  rcases syscallExecute_inv hcall with ⟨-, rfl⟩ | ⟨child, hfree, hcase⟩
  · exact .refl _
  · have hunused := (freeSlot_spec hfree).2
    have hne {used : Nat} (huse : (k.pcb used).inUse = true) :
        used ≠ child := by
      rintro rfl
      rw [hunused] at huse
      cases huse
    have hnamed {used : Nat} (huse : (k.pcb used).inUse = true) :
        (k.modify child fun _ => k.namedPcb command child).pcb used =
          k.pcb used := Function.update_of_ne (hne huse) ..
    rcases hcase with ⟨-, rfl⟩ | ⟨entrypoint, -, rfl⟩
    · change (k.pcb slot).SameProgram
        ((k.modify child fun _ => k.namedPcb command child).pcb slot)
      rw [hnamed huse]
      exact .refl _
    · rw [startProcess_pcb (hne hcurrent).symm]
      by_cases hparent : slot = k.current
      · rw [hparent, Function.update_self]
        dsimp only
        rw [hnamed hcurrent]
        exact ⟨rfl, fun _ _ => rfl⟩
      · rw [Function.update_of_ne hparent, Function.update_of_ne (hne huse)]
        dsimp only
        rw [hnamed huse]
        exact .refl _

theorem kernelEntry_sameProgram {event : KernelEvent} {answer : Outcome}
    (hcurrent : (k.pcb k.current).inUse = true)
    (hstep : kernelEntry img layout k event = some (next, answer))
    {slot : Nat} (huse : (k.pcb slot).inUse = true) :
    (k.pcb slot).SameProgram (next.pcb slot) := by
  cases kernelEntry_cases hstep with
  | switched target esp ebp =>
      rw [contextSwitch_pcb]
      refine .update k.pcb ?_ slot
      exact ⟨rfl, fun _ _ => rfl⟩
  | unswitched | activated => exact .refl _
  | executed command esp ebp junk hstack hcall =>
      exact syscallExecute_sameProgram hcurrent hcall huse
  | halted status hevent hhalt =>
      obtain rfl := congrArg Prod.fst hhalt
      exact haltProgram_sameProgram k status slot

theorem tickAll_sameProgram (k : Kernel) (slot : Nat) :
    (k.pcb slot).SameProgram ((tickAll k).pcb slot) :=
  tickAll_rule Pcb.SameProgram.refl rtcHandler_sameProgram k slot

/-- No step changes the program of a process. -/
theorem systemStep_sameProgram {event : SystemEvent} {answer : SystemAnswer}
    (hcurrent : (k.pcb k.current).inUse = true)
    (hshape : TableShape (k.pcb k.current).fa)
    (hstep : systemStep img layout k event = some (next, answer))
    {slot : Nat} (huse : (k.pcb slot).inUse = true) :
    (k.pcb slot).SameProgram (next.pcb slot) := by
  cases systemStep_cases hstep with
  | kernel event outcome hentry =>
      exact kernelEntry_sameProgram hcurrent hentry huse
  | file event sess reply htable =>
      exact .update k.pcb (tableStep_sameProgram hshape htable) slot
  | clock => exact tickAll_sameProgram k slot

/-- A program is loaded into the page of its slot, whatever its file says. -/
theorem loadProgramIntoSlot_elsewhere (pages filename : Memory UInt8)
    {slot other addr : Nat} (hne : other ≠ slot)
    (haddr : InSlotPage other addr) :
    (loadProgramIntoSlot img pages filename slot).1 addr = pages addr := by
  have houtside := slotPage_disjoint hne haddr
  apply loadProgramIntoSlot_unwritten
  simp only [InSlotPage, processPageSize, processLinkOffset] at *
  omega

/-- The page of a process is loaded while its slot is still free. -/
theorem kernelEntry_pages {event : KernelEvent} {answer : Outcome}
    (hfits : event.Fits)
    (hstep : kernelEntry img layout k event = some (next, answer))
    {slot addr : Nat} (huse : (k.pcb slot).inUse = true)
    (haddr : InSlotPage slot addr) : next.pages addr = k.pages addr := by
  cases kernelEntry_cases hstep with
  | switched target esp ebp =>
      unfold contextSwitch resume
      dsimp only
      split <;> rfl
  | unswitched | activated => rfl
  | executed command esp ebp junk hstack hcall =>
      rcases syscallExecute_inv hcall with ⟨-, rfl⟩ | ⟨child, hfree, -⟩
      · rfl
      · have hne : slot ≠ child := by
          rintro rfl
          rw [(freeSlot_spec hfree).2] at huse
          cases huse
        have hpages :=
          syscallExecute_pages hfits hfree img layout esp ebp junk
        rw [hcall] at hpages
        rw [hpages]
        exact loadProgramIntoSlot_elsewhere _ _ hne haddr
  | halted status hevent hhalt =>
      obtain rfl := congrArg Prod.fst hhalt
      unfold haltProgram
      dsimp only
      split <;> rfl

theorem systemStep_pages {event : SystemEvent} {answer : SystemAnswer}
    (hfits : event.Fits)
    (hstep : systemStep img layout k event = some (next, answer))
    {slot addr : Nat} (huse : (k.pcb slot).inUse = true)
    (haddr : InSlotPage slot addr) : next.pages addr = k.pages addr := by
  cases systemStep_cases hstep with
  | kernel event outcome hentry =>
      exact kernelEntry_pages hfits hentry huse haddr
  | file event sess reply htable => rfl
  | clock => rw [tickAll_eq]

end Steps

/-- Each terminal draws where its screen is. -/
def Tty.Wired (layout : Layout) (tty : Tty) : Prop :=
  ∀ t < numTerminals, tty.videoMemory t = getTerminalOutputBuffer layout tty t

section Wired

variable {img : Image} {layout : Layout} {k next : Kernel} {tty after : Tty}

theorem Tty.Wired.congr (hwired : tty.Wired layout)
    (hsame : after.wiring = tty.wiring) : after.Wired layout := by
  obtain ⟨hactive, hvideo⟩ := Prod.mk.inj hsame
  intro t ht
  rw [hvideo, getTerminalOutputBuffer_congr hactive]
  exact hwired t ht

theorem terminalRead_wiring {terminal : Nat} {nbytes : Int}
    {bytes : List UInt8}
    (hread : terminalRead tty terminal nbytes = some (bytes, after)) :
    after.wiring = tty.wiring := by
  obtain ⟨-, heq⟩ := Option.ite_none_left_eq_some.mp hread
  obtain ⟨-, rfl⟩ := Prod.mk.inj (Option.some.inj heq)
  rfl

theorem resetTerminal_wiring (terminal : Nat) :
    (resetTerminal layout tty terminal).wiring = tty.wiring := by
  simp only [Tty.wiring, resetTerminal, setHardwareCursor,
    clearTerminal_activeTerminal, clearTerminal_videoMemory, initInputBuffer]

theorem readHandler_wiring {pcb : Pcb} {fd : Nat} {f : FileDesc}
    {nbytes : Int} {fops : FileOps} {outcome : ReadOutcome}
    (hread : readHandler img pcb tty fd f nbytes fops = some outcome) :
    outcome.tty.wiring = tty.wiring := by
  cases fops with
  | stdin =>
      obtain ⟨⟨bytes, after⟩, hline, rfl⟩ := Option.map_eq_some_iff.mp hread
      exact terminalRead_wiring hline
  | rtc =>
      simp only [readHandler] at hread
      split_ifs at hread
      all_goals
        obtain rfl := Option.some.inj hread
        rfl
  | dir | file | stdout =>
      obtain rfl := Option.some.inj hread
      rfl

theorem writeHandler_wiring {pcb : Pcb} {user : Memory UInt8} {buf : Nat}
    {nbytes : Int} (fops : FileOps) :
    (writeHandler pcb tty user buf nbytes fops).tty.wiring = tty.wiring := by
  cases fops with
  | stdout => exact terminalWrite_wiring _
  | rtc =>
      simp only [writeHandler]
      split_ifs <;> rfl
  | stdin | dir | file => rfl

theorem tableStep_wiring {sess last : Session} {event : TableEvent}
    {reply : Reply} (hstep : tableStep img sess event = some (last, reply)) :
    last.tty.wiring = sess.tty.wiring := by
  cases tableStep_cases hstep with
  | openFile | closeFile | rtcTick => rfl
  | readFile fd buf nbytes outcome hread =>
      rcases syscallRead_cases hread with ⟨rfl, -⟩ | ⟨f, fops, -, -, hhandler⟩
      · rfl
      · exact readHandler_wiring hhandler
  | keyTyped terminal ch => exact keyboardPutc_wiring ch
  | writeFile user fd buf nbytes =>
      rcases @syscallWrite_cases sess.pcb sess.tty user buf nbytes fd with
        ⟨heq, -⟩ | ⟨f, fops, -, -, -, heq⟩
      · rw [heq]
      · rw [heq]
        exact writeHandler_wiring fops

theorem haltProgram_wiring (k : Kernel) (status : Int) :
    (haltProgram layout k status).1.tty.wiring = k.tty.wiring := by
  unfold haltProgram
  dsimp only
  split
  · exact resetTerminal_wiring _
  · rfl

theorem kernelEntry_wired {event : KernelEvent} {answer : Outcome}
    (hwired : k.tty.Wired layout)
    (hstep : kernelEntry img layout k event = some (next, answer)) :
    next.tty.Wired layout := by
  cases kernelEntry_cases hstep with
  | switched target esp ebp =>
      refine hwired.congr ?_
      unfold contextSwitch resume
      dsimp only
      split <;> rfl
  | unswitched => exact hwired
  | executed command esp ebp junk hstack hcall =>
      refine hwired.congr ?_
      rcases syscallExecute_inv hcall with ⟨-, rfl⟩ | ⟨child, -, hcase⟩
      · rfl
      · rcases hcase with ⟨-, rfl⟩ | ⟨entrypoint, -, rfl⟩ <;> rfl
  | halted status hevent hhalt =>
      obtain rfl := congrArg Prod.fst hhalt
      exact hwired.congr (haltProgram_wiring k status)
  | activated newTerminal =>
      exact fun t ht => switchActiveTerminal_videoMemory hwired newTerminal ht

theorem systemStep_wired {event : SystemEvent} {answer : SystemAnswer}
    (hwired : k.tty.Wired layout)
    (hstep : systemStep img layout k event = some (next, answer)) :
    next.tty.Wired layout := by
  cases systemStep_cases hstep with
  | kernel event outcome hentry => exact kernelEntry_wired hwired hentry
  | file event sess reply htable =>
      exact hwired.congr (tableStep_wiring htable)
  | clock =>
      rw [tickAll_eq]
      exact hwired

end Wired

section Boot

variable {img : Image} {layout : Layout} {k next : Kernel}

theorem startRoot_tty {command : List UInt8} {junk : Nat → Junk} {i : Nat}
    (hstart : startRoot img layout command junk k i = some next) :
    next.tty = k.tty := by
  obtain ⟨-, heq⟩ := Option.ite_none_left_eq_some.mp hstart
  rw [← Option.some.inj heq]
  rfl

theorem startRoots_tty {command : List UInt8} {junk : Nat → Junk}
    {slots : List Nat}
    (hstart : slots.foldlM (startRoot img layout command junk) k =
      some next) : next.tty = k.tty := by
  induction slots generalizing k with
  | nil => rw [Option.some.inj hstart]
  | cons i rest ih =>
      obtain ⟨after, hfirst, hrest⟩ := Option.bind_eq_some_iff.mp hstart
      exact (ih hrest).trans (startRoot_tty hfirst)

theorem clearPcbs_tty (slots : List Nat) (k : Kernel) :
    (slots.foldl clearPcb k).tty = k.tty := by
  induction slots generalizing k with
  | nil => rfl
  | cons i rest ih => exact ih _

/-- Booting leaves the terminals as `multiple_terminal_init` does. -/
theorem kernelRunFirstProgram_tty {command : List UInt8} {junk : Nat → Junk}
    {memory : Kernel}
    (hrun : kernelRunFirstProgram img layout command junk memory = some k) :
    k.tty = multipleTerminalInit layout memory.tty := by
  obtain ⟨started, hstart, rfl⟩ := Option.map_eq_some_iff.mp hrun
  have htty := startRoots_tty hstart
  rw [clearPcbs_tty] at htty
  exact htty

end Boot

/-- The events of the system and what else can happen.  The current process
stores to its page, which is mapped at 128MB; what a system call stores there
for it counts as a store of its own.  It draws to whatever memory it has mapped
as a screen, and Ctrl+L redraws one. -/
inductive MachineEvent where
  | system (event : SystemEvent)
  | store (offset : Nat) (byte : UInt8)
  | draw (addr : Nat) (word : UInt16)
  | redraw (terminal : Nat)

inductive MachineAnswer where
  | system (answer : SystemAnswer)
  | done
  deriving DecidableEq

abbrev MachineTransition := Transition Kernel MachineEvent MachineAnswer

def machineStep (img : Image) (layout : Layout) :
    OutFn Kernel MachineEvent MachineAnswer
  | k, .system event =>
      (systemStep img layout k event).map fun (next, answer) =>
        (next, .system answer)
  | k, .store offset byte =>
      if offset < processPageSize then
        some ({ k with
          pages := k.pages.store
            (getProcessPageFromSlot k.currentPcb.slotNum + offset) byte },
          .done)
      else none
  | k, .draw addr word =>
      some ({ k with
        tty := { k.tty with vram := k.tty.vram.store addr word } }, .done)
  | k, .redraw terminal =>
      some ({ k with tty := redrawInput k.tty terminal }, .done)

def MachineEvent.Fits : MachineEvent → Prop
  | .system event => event.Fits
  | _ => True

instance : DecidablePred MachineEvent.Fits
  | .system event => inferInstanceAs (Decidable event.Fits)
  | .store _ _ => isTrue trivial
  | .draw _ _ => isTrue trivial
  | .redraw _ => isTrue trivial

/-- The byte that the process in the slot stored last at the offset of its
page, if it did. -/
def recordStore (slot offset : Nat) (last : Option UInt8)
    (step : MachineTransition) : Option UInt8 :=
  match step.event with
  | .store target byte =>
      if step.before.current = slot ∧ target = offset then some byte else last
  | _ => last

def lastStore (slot offset : Nat) (transitions : List MachineTransition) :
    Option UInt8 :=
  transitions.foldl (recordStore slot offset) none

theorem lastStore_concat (slot offset : Nat)
    (transitions : List MachineTransition) (step : MachineTransition) :
    lastStore slot offset (transitions ++ [step]) =
      recordStore slot offset (lastStore slot offset transitions) step :=
  List.foldl_append

theorem Holds.root_inUse {table : Nat → ProcessEntry}
    {terminal : Fin numTerminals} {chain : ProcessChain} {status : Status}
    (hholds : Holds table terminal chain status) :
    (table terminal).inUse = true := by
  induction chain generalizing status with
  | root slot =>
      obtain ⟨rfl, hprocess⟩ := hholds
      exact hprocess.inUse
  | call slot saved caller ih => exact ih hholds.2.2.2.2

/-- What holds of the root programs since boot. -/
structure RootsKept (layout : Layout) (start k : Kernel) : Prop where
  wired : k.tty.Wired layout
  represents : ∃ threads, Represents k.core.table k.current threads
  clean : CleanSlots k
  program : ∀ slot < numTerminals, (start.pcb slot).SameProgram (k.pcb slot)

section Machine

variable {img : Image} {layout : Layout} {start k next : Kernel}

theorem RootsKept.inUse (hkept : RootsKept layout start k) {slot : Nat}
    (hslot : slot < numTerminals) : (k.pcb slot).inUse = true := by
  obtain ⟨threads, hrep⟩ := hkept.represents
  exact (hrep.holds ⟨slot, hslot⟩).root_inUse

theorem RootsKept.congr (hkept : RootsKept layout start k) (hpcb : next.pcb = k.pcb)
    (hesp : next.esp = k.esp) (htty : next.tty.wiring = k.tty.wiring) :
    RootsKept layout start next := by
  obtain ⟨hwired, ⟨threads, hrep⟩, hclean, hprogram⟩ := hkept
  have hcurrent : next.current = k.current := congrArg slotOfEsp hesp
  refine ⟨hwired.congr htty,
    ⟨threads, represents_congr hrep (fun slot => ?_) hesp⟩, ?_, ?_⟩
  · rw [hpcb]
    exact .refl _
  · rw [CleanSlots, hpcb, hcurrent]
    exact hclean
  · rw [hpcb]
    exact hprogram

theorem RootsKept.system (hkept : RootsKept layout start k) {event : SystemEvent}
    {answer : SystemAnswer} (hfits : event.Fits)
    (hstep : systemStep img layout k event = some (next, answer)) :
    RootsKept layout start next := by
  obtain ⟨hwired, ⟨threads, hrep⟩, hclean, hprogram⟩ := hkept
  obtain ⟨hcurrent, huse, -⟩ := hrep.current_process
  refine ⟨systemStep_wired hwired hstep,
    systemStep_represents hrep hfits hstep,
    (systemStep_clean hrep hclean hfits hstep).1, fun slot hslot => ?_⟩
  have hshape := ((hclean _ hcurrent).used huse).shape
  have hroot := (hrep.holds ⟨slot, hslot⟩).root_inUse
  exact (hprogram slot hslot).trans
    (systemStep_sameProgram huse hshape hstep hroot)

/-- The byte at an offset of a page is its own. -/
theorem slotPage_offset {slot other offset target : Nat}
    (hoffset : offset < processPageSize) (htarget : target < processPageSize)
    (hsame : getProcessPageFromSlot slot + offset =
      getProcessPageFromSlot other + target) :
    slot = other ∧ offset = target := by
  simp only [getProcessPageFromSlot, kernelPageEnd, processPageSize] at *
  omega

/-- Of a root program's page only its own stores change anything. -/
def PageKept (start k : Kernel) (transitions : List MachineTransition) : Prop :=
  ∀ slot < numTerminals, ∀ offset < processPageSize,
    k.pages (getProcessPageFromSlot slot + offset) =
      (lastStore slot offset transitions).getD
        (start.pages (getProcessPageFromSlot slot + offset))

/-- A step that stores nothing to the pages of the root programs. -/
theorem PageKept.concat {transitions : List MachineTransition}
    {step : MachineTransition} (hpage : PageKept start k transitions)
    (hpages : ∀ slot < numTerminals, ∀ addr, InSlotPage slot addr →
      next.pages addr = k.pages addr)
    (hrecord : ∀ slot offset last, recordStore slot offset last step = last) :
    PageKept start next (transitions ++ [step]) := by
  intro slot hslot offset hoffset
  rw [lastStore_concat, hrecord, hpages slot hslot _
    ⟨Nat.le_add_right _ _, Nat.add_lt_add_left hoffset _⟩]
  exact hpage slot hslot offset hoffset

theorem machineStep_kept {transitions : List MachineTransition}
    {event : MachineEvent} {answer : MachineAnswer}
    (hkept : RootsKept layout start k) (hpage : PageKept start k transitions)
    (hfits : event.Fits)
    (hstep : machineStep img layout k event = some (next, answer)) :
    RootsKept layout start next ∧
      PageKept start next (transitions ++ [⟨k, event, answer, next⟩]) := by
  cases event with
  | system event =>
      obtain ⟨⟨_, answer⟩, hsystem, heq⟩ := Option.map_eq_some_iff.mp hstep
      obtain ⟨rfl, rfl⟩ := Prod.mk.inj heq
      refine ⟨hkept.system hfits hsystem, hpage.concat ?_ fun _ _ _ => rfl⟩
      exact fun slot hslot addr haddr =>
        systemStep_pages hfits hsystem (hkept.inUse hslot) haddr
  | store target byte =>
      obtain ⟨htarget, heq⟩ := Option.ite_none_right_eq_some.mp hstep
      obtain ⟨rfl, rfl⟩ := Prod.mk.inj (Option.some.inj heq)
      refine ⟨hkept.congr rfl rfl rfl, fun slot hslot offset hoffset => ?_⟩
      obtain ⟨threads, hrep⟩ := hkept.represents
      have hslotNum : k.currentPcb.slotNum = k.current :=
        hrep.slotNum _ hrep.current_process.1
      rw [lastStore_concat, recordStore]
      dsimp only
      rw [hslotNum]
      -- pages of different slots do not meet, so that a byte changes only
      -- where the store is recorded
      by_cases hhit : k.current = slot ∧ target = offset
      · obtain ⟨hcurrent, htarget⟩ := hhit
        rw [if_pos ⟨hcurrent, htarget⟩, hcurrent, htarget]
        exact Memory.store_same ..
      · rw [if_neg hhit, Memory.store_of_ne]
        · exact hpage slot hslot offset hoffset
        · intro hsame
          obtain ⟨hslots, hoffsets⟩ := slotPage_offset hoffset htarget hsame
          exact hhit ⟨hslots.symm, hoffsets.symm⟩
  | draw addr word =>
      obtain ⟨rfl, rfl⟩ := Prod.mk.inj (Option.some.inj hstep)
      exact ⟨hkept.congr rfl rfl rfl,
        hpage.concat (fun _ _ _ _ => rfl) fun _ _ _ => rfl⟩
  | redraw terminal =>
      obtain ⟨rfl, rfl⟩ := Prod.mk.inj (Option.some.inj hstep)
      exact ⟨hkept.congr rfl rfl redrawInput_wiring,
        hpage.concat (fun _ _ _ _ => rfl) fun _ _ _ => rfl⟩

theorem ZeroBooted.rootsKept (hboot : ZeroBooted img layout start) :
    RootsKept layout start start := by
  refine ⟨?_, ⟨_, hboot.booted.represents⟩, hboot.clean, fun _ _ => .refl _⟩
  obtain ⟨command, junk, memory, -, -, hrun⟩ := hboot
  rw [kernelRunFirstProgram_tty hrun]
  exact fun t ht => (multipleTerminalInit_started ht).videoMemory_eq

theorem machine_kept {transitions : List MachineTransition}
    (hboot : ZeroBooted img layout start)
    (hexec : Execution (machineStep img layout) start transitions k)
    (hfits : ∀ step ∈ transitions, step.event.Fits) :
    RootsKept layout start k ∧ PageKept start k transitions := by
  induction hexec with
  | nil => exact ⟨hboot.rootsKept, fun _ _ _ _ => rfl⟩
  | concat _ hstep ih =>
      obtain ⟨hkept, hpage⟩ := ih fun step hmem =>
        hfits step (List.mem_append_left _ hmem)
      exact machineStep_kept hkept hpage (hfits _ List.mem_concat_self) hstep

end Machine

end PsychOS
