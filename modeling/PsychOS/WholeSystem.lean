/-
The whole system: kernel entries, the file system calls of the process that
runs, keys, and ticks of the clock, in any order.  What each of them can do to
the PCBs is said here once.
-/
import PsychOS.Boot
import PsychOS.DescriptorTable

namespace PsychOS

/-- Kernel entries, file system calls of the current process with the keys in
between, and interrupts of the clock. -/
inductive SystemEvent where
  | kernel (event : KernelEvent)
  | file (event : TableEvent)
  | clock

inductive SystemAnswer where
  | kernel (outcome : Outcome)
  | file (reply : Reply)
  | ticked
  deriving DecidableEq

abbrev SystemTransition := Transition Kernel SystemEvent SystemAnswer

/-- What the file system calls of the current process work on. -/
def Kernel.session (k : Kernel) : Session := ⟨k.currentPcb, k.tty⟩

def Kernel.withSession (k : Kernel) (sess : Session) : Kernel :=
  { k.modify k.current fun _ => sess.pcb with tty := sess.tty }

/-- The loop of `rtc_handler`. -/
def tickSlots (pcbs : Nat → Pcb) : Nat → Pcb :=
  (List.range maxProcesses).foldl
    (fun pcbs i => Function.update pcbs i (rtcHandler (pcbs i))) pcbs

theorem tickSlots_apply (pcbs : Nat → Pcb) (slot : Nat) :
    tickSlots pcbs slot =
      if slot < maxProcesses then rtcHandler (pcbs slot) else pcbs slot :=
  foldl_update_apply rtcHandler pcbs maxProcesses slot

/-- `rtc_handler`. -/
def tickAll (k : Kernel) : Kernel := { k with pcb := tickSlots k.pcb }

/-- A tick reaches every PCB once and nothing else. -/
theorem tickAll_eq (k : Kernel) :
    tickAll k = { k with
      pcb := fun slot =>
        if slot < maxProcesses then rtcHandler (k.pcb slot)
        else k.pcb slot } := by
  rw [tickAll, funext (tickSlots_apply k.pcb)]

/-- What relates a PCB to itself and to the next tick relates all of them. -/
theorem tickAll_rule {P : Pcb → Pcb → Prop} (hrefl : ∀ pcb, P pcb pcb)
    (htick : ∀ pcb, P pcb (rtcHandler pcb)) (k : Kernel) (slot : Nat) :
    P (k.pcb slot) ((tickAll k).pcb slot) := by
  rw [tickAll_eq]
  dsimp only
  split
  · exact htick _
  · exact hrefl _

/-- A tick is for all processes, so it is not a call of one of them. -/
def systemStep (img : Image) (layout : Layout) :
    OutFn Kernel SystemEvent SystemAnswer
  | k, .kernel event =>
      (kernelEntry img layout k event).map fun (next, outcome) =>
        (next, .kernel outcome)
  | _, .file (.call .rtcTick) => none
  | k, .file event =>
      (tableStep img k.session event).map fun (sess, reply) =>
        (k.withSession sess, .file reply)
  | k, .clock => some (tickAll k, .ticked)

/-- What a step can be. -/
inductive SystemCase (img : Image) (layout : Layout) (k : Kernel) :
    SystemEvent → Kernel → SystemAnswer → Prop where
  | kernel (event : KernelEvent) {next : Kernel} (outcome : Outcome)
      (hentry : kernelEntry img layout k event = some (next, outcome)) :
      SystemCase img layout k (.kernel event) next (.kernel outcome)
  | file (event : TableEvent) (sess : Session) (reply : Reply)
      (htable : tableStep img k.session event = some (sess, reply)) :
      SystemCase img layout k (.file event) (k.withSession sess) (.file reply)
  | clock : SystemCase img layout k .clock (tickAll k) .ticked

theorem systemStep_cases {img : Image} {layout : Layout} {k next : Kernel}
    {event : SystemEvent} {answer : SystemAnswer}
    (hstep : systemStep img layout k event = some (next, answer)) :
    SystemCase img layout k event next answer := by
  unfold systemStep at hstep
  split at hstep
  · obtain ⟨⟨_, outcome⟩, hentry, heq⟩ := Option.map_eq_some_iff.mp hstep
    obtain ⟨rfl, rfl⟩ := Prod.mk.inj heq
    exact .kernel _ outcome hentry
  · cases hstep
  · obtain ⟨⟨sess, reply⟩, htable, heq⟩ := Option.map_eq_some_iff.mp hstep
    obtain ⟨rfl, rfl⟩ := Prod.mk.inj heq
    exact .file _ sess reply htable
  · obtain ⟨rfl, rfl⟩ := Prod.mk.inj (Option.some.inj hstep)
    exact .clock

/-- The command, if there is one, has room in `program_name` and `args`. -/
def SystemEvent.Fits : SystemEvent → Prop
  | .kernel event => event.Fits
  | _ => True

instance : DecidablePred SystemEvent.Fits
  | .kernel event => inferInstanceAs (Decidable event.Fits)
  | .file _ => isTrue trivial
  | .clock => isTrue trivial

section SameProcess

theorem rtcHandler_sameProcess (pcb : Pcb) :
    pcb.SameProcess (rtcHandler pcb) := by
  unfold rtcHandler
  split <;> rfl

theorem tableStep_sameProcess {img : Image} {sess after : Session}
    {event : TableEvent} {reply : Reply}
    (hstep : tableStep img sess event = some (after, reply)) :
    sess.pcb.SameProcess after.pcb := by
  cases tableStep_cases hstep with
  | openFile name => exact syscallOpen_sameProcess img sess.pcb _
  | closeFile fd => exact syscallClose_sameProcess sess.pcb fd
  | readFile fd buf nbytes outcome hread =>
      obtain ⟨position, ticks, hpcb⟩ := syscallRead_pcb hread
      dsimp only
      rw [hpcb]
      rfl
  | keyTyped terminal ch => exact .refl sess.pcb
  | rtcTick => exact rtcHandler_sameProcess sess.pcb
  | writeFile user fd buf nbytes =>
      obtain ⟨interval, hpcb⟩ :=
        @syscallWrite_pcb sess.pcb sess.tty user buf nbytes fd
      dsimp only
      rw [hpcb]
      rfl

end SameProcess

section Calls

variable {img : Image} {layout : Layout} {k next : Kernel}

theorem resume_pcb (k : Kernel) (target : Nat) :
    (resume k target).1.pcb = k.pcb := by
  unfold resume
  dsimp only
  split <;> rfl

theorem contextSwitch_pcb (last target esp ebp : Nat) :
    (contextSwitch layout k last target esp ebp).1.pcb =
      Function.update k.pcb last
        { k.pcb last with esp := esp, ebp := ebp } := by
  rw [contextSwitch, resume_pcb]
  rfl

/-- Only a process without saved registers is entered at its start, and then
on its own stack. -/
theorem contextSwitch_entered {last target esp ebp slot entrypoint : Nat}
    (hentered : (contextSwitch layout k last target esp ebp).2 =
      .entered slot entrypoint) :
    slot = target ∧
      ((contextSwitch layout k last target esp ebp).1.pcb target).esp = 0 ∧
      (contextSwitch layout k last target esp ebp).1.esp =
        getKernelStackBaseFromSlot
          ((contextSwitch layout k last target esp ebp).1.pcb
            target).slotNum := by
  unfold contextSwitch resume at hentered ⊢
  dsimp only at hentered ⊢
  split at hentered
  · rename_i hesp
    rw [if_pos hesp]
    exact ⟨(Outcome.entered.inj hentered).1.symm, hesp, rfl⟩
  · cases hentered

/-- The child is set up with its standard descriptors, the parent waits. -/
theorem startProcess_pcb {parent child entrypoint esp ebp : Nat}
    {junk : Junk} (hne : child ≠ parent) :
    (startProcess layout k parent child entrypoint esp ebp junk).pcb =
      Function.update
        (Function.update k.pcb child (openStdinAndStdout { k.pcb child with
          entrypoint := entrypoint
          processPdPtr := getProcessPd (k.pcb child).slotNum
          parent := some parent
          child := none
          inUse := true
          pid := k.nextPid
          terminalNum := (k.pcb parent).terminalNum
          status := .running }))
        parent { k.pcb parent with
          child := some child, status := .blocked, esp := esp, ebp := ebp } := by
  funext slot
  by_cases hparent : slot = parent
  · subst hparent
    simp only [startProcess, Kernel.switchToRing3, Kernel.setKernelStack,
      Kernel.modify, Kernel.getNextPid, Kernel.enablePaging,
      Function.update_self, Function.update_of_ne hne.symm]
  · by_cases hchild : slot = child
    · subst hchild
      simp only [startProcess, Kernel.switchToRing3, Kernel.setKernelStack,
        Kernel.modify, Kernel.getNextPid, Kernel.enablePaging,
        Function.update_self, Function.update_of_ne hne]
    · simp only [startProcess, Kernel.switchToRing3, Kernel.setKernelStack,
        Kernel.modify, Kernel.getNextPid, Kernel.enablePaging,
        Function.update_of_ne hparent, Function.update_of_ne hchild]

theorem startProcess_esp (k : Kernel)
    (parent child entrypoint esp ebp : Nat) (junk : Junk) :
    (startProcess layout k parent child entrypoint esp ebp junk).esp =
      getKernelStackBaseFromSlot (k.pcb child).slotNum :=
  rfl

theorem release_pcb (k : Kernel) (child : Nat) :
    (release k child).pcb = Function.update k.pcb child
      (closeDescriptors { k.pcb child with inUse := false }) := by
  simp only [release, Kernel.modify, Function.update_self,
    Function.update_idem, closeDescriptors]

theorem restartProgram_pcb (k : Kernel) (child : Nat) :
    (restartProgram layout k child).1.pcb = Function.update k.pcb child
      (openStdinAndStdout { k.pcb child with
        parent := none
        child := none
        inUse := true
        pid := k.nextPid
        status := .running }) := by
  simp only [restartProgram, Kernel.switchToRing3, Kernel.setKernelStack,
    Kernel.modify, Kernel.getNextPid, Function.update_self,
    Function.update_idem]

theorem modify_status (k : Kernel) (slot : Nat) (status : Status)
    (other : Nat) : ∃ moved,
      (k.modify slot fun pcb => { pcb with status := status }).pcb other =
        { k.pcb other with status := moved } := by
  by_cases hslot : other = slot
  · subst hslot
    exact ⟨status, Function.update_self ..⟩
  · exact ⟨_, Function.update_of_ne hslot ..⟩

/-- The rest of `halt` for a process with a parent only moves statuses. -/
theorem returnToParent_pcb (k : Kernel) (child parent : Nat) (status : Int)
    (slot : Nat) : ∃ moved, (returnToParent k child parent status).1.pcb slot =
      { k.pcb slot with status := moved } := by
  obtain ⟨first, hchild⟩ := modify_status k child .none slot
  obtain ⟨moved, hparent⟩ := modify_status
    (k.modify child fun pcb => { pcb with status := .none }) parent .running
    slot
  refine ⟨moved, hparent.trans ?_⟩
  rw [hchild]

theorem syscallExecute_failed {command : List UInt8} {esp ebp : Nat}
    {junk : Junk}
    (hfail : syscallExecute img layout k command esp ebp junk =
      (next, .returned (-1))) :
    next = k ∨ ∃ child, k.freeSlot = some child ∧
      next = { k.modify child fun _ => k.namedPcb command child with
        pages := (loadProgramIntoSlot img k.pages
          (k.namedPcb command child).text
          (k.namedPcb command child).slotNum).1 } := by
  rcases syscallExecute_inv hfail with
    ⟨-, hnext⟩ | ⟨child, hfree, ⟨-, hnext⟩ | ⟨entrypoint, hanswer, -⟩⟩
  · exact Or.inl hnext
  · exact Or.inr ⟨child, hfree, hnext⟩
  · cases hanswer

theorem syscallExecute_started {command : List UInt8}
    {esp ebp child entrypoint : Nat} {junk : Junk}
    (hstart : syscallExecute img layout k command esp ebp junk =
      (next, .entered child entrypoint)) :
    k.freeSlot = some child ∧
      next = startProcess layout
        { k.modify child fun _ => k.namedPcb command child with
          pages := (loadProgramIntoSlot img k.pages
            (k.namedPcb command child).text
            (k.namedPcb command child).slotNum).1 }
        k.current child entrypoint esp ebp junk := by
  rcases syscallExecute_inv hstart with
    ⟨hanswer, -⟩ | ⟨slot, hfree, ⟨hanswer, -⟩ | ⟨entry, hanswer, hnext⟩⟩
  · cases hanswer
  · cases hanswer
  · obtain ⟨rfl, rfl⟩ := Outcome.entered.inj hanswer
    exact ⟨hfree, hnext⟩

end Calls

section Text

variable {img : Image} {layout : Layout} {k next : Kernel}

theorem modify_text (k : Kernel) (slot : Nat) {f : Pcb → Pcb}
    (hkeep : ∀ pcb, (f pcb).text = pcb.text) (other : Nat) :
    ((k.modify slot f).pcb other).text = (k.pcb other).text :=
  update_keeps Pcb.text k.pcb (hkeep _) other

theorem startProcess_text (k : Kernel)
    (parent child entrypoint esp ebp : Nat) (junk : Junk) (slot : Nat) :
    ((startProcess layout k parent child entrypoint esp ebp junk).pcb
      slot).text = (k.pcb slot).text := by
  simp only [startProcess, Kernel.switchToRing3, Kernel.setKernelStack,
    Kernel.getNextPid, Kernel.enablePaging]
  rw [modify_text, modify_text, modify_text, modify_text]
  all_goals exact fun _ => rfl

theorem haltProgram_text (k : Kernel) (status : Int) (slot : Nat) :
    ((haltProgram layout k status).1.pcb slot).text = (k.pcb slot).text := by
  have hreleased : ((release k k.current).pcb slot).text =
      (k.pcb slot).text := by
    have hclosed := (closeDescriptors_sameProcess
      { k.pcb k.current with inUse := false }).text_eq
    rw [release_pcb]
    exact update_keeps Pcb.text k.pcb hclosed slot
  rw [← hreleased]
  unfold haltProgram
  dsimp only
  split
  · rw [restartProgram_pcb]
    exact update_keeps Pcb.text _ (by rfl) slot
  · obtain ⟨moved, hmoved⟩ := returnToParent_pcb (release k k.current)
      k.current _ status slot
    rw [hmoved]

theorem contextSwitch_text (k : Kernel) (last target esp ebp slot : Nat) :
    ((contextSwitch layout k last target esp ebp).1.pcb slot).text =
      (k.pcb slot).text := by
  rw [contextSwitch_pcb]
  exact update_keeps Pcb.text k.pcb (by rfl) slot

theorem syscallExecute_text {command : List UInt8} {esp ebp : Nat}
    {junk : Junk} {outcome : Outcome}
    (hcall : syscallExecute img layout k command esp ebp junk =
      (next, outcome))
    {slot : Nat} (huse : (k.pcb slot).inUse = true) :
    (next.pcb slot).text = (k.pcb slot).text := by
  rcases syscallExecute_inv hcall with ⟨-, rfl⟩ | ⟨child, hfree, hcase⟩
  · rfl
  · have hne : slot ≠ child := by
      rintro rfl
      rw [(freeSlot_spec hfree).2] at huse
      cases huse
    have hnamed : ((k.modify child fun _ => k.namedPcb command child).pcb
        slot).text = (k.pcb slot).text :=
      congrArg Pcb.text (Function.update_of_ne hne ..)
    rcases hcase with ⟨-, rfl⟩ | ⟨entrypoint, -, rfl⟩
    · exact hnamed
    · exact (startProcess_text ..).trans hnamed

/-- Names and arguments are written to free slots only. -/
theorem kernelEntry_text {event : KernelEvent} {answer : Outcome}
    (hstep : kernelEntry img layout k event = some (next, answer))
    {slot : Nat} (huse : (k.pcb slot).inUse = true) :
    (next.pcb slot).text = (k.pcb slot).text := by
  cases kernelEntry_cases hstep with
  | switched target esp ebp =>
      exact contextSwitch_text k k.current target esp ebp slot
  | unswitched | activated => rfl
  | executed command esp ebp junk hstack hcall =>
      exact syscallExecute_text hcall huse
  | halted status hevent hhalt =>
      obtain rfl := congrArg Prod.fst hhalt
      exact haltProgram_text k status slot

theorem modify_sameProcess {i : Nat} {f : Pcb → Pcb}
    (hsame : (k.pcb i).SameProcess (f (k.pcb i))) (slot : Nat) :
    (k.pcb slot).SameProcess ((k.modify i f).pcb slot) := by
  unfold Kernel.modify
  by_cases hslot : slot = i
  · subst hslot
    simpa only [Function.update_self] using hsame
  · simpa only [Function.update_of_ne hslot] using .refl _

theorem withSession_sameProcess {sess : Session}
    (hsame : k.currentPcb.SameProcess sess.pcb) (slot : Nat) :
    (k.pcb slot).SameProcess ((k.withSession sess).pcb slot) := by
  have hmodify := @modify_sameProcess k k.current (fun _ => sess.pcb) hsame
  exact hmodify slot

theorem tickAll_sameProcess (k : Kernel) (slot : Nat) :
    (k.pcb slot).SameProcess ((tickAll k).pcb slot) :=
  tickAll_rule Pcb.SameProcess.refl rtcHandler_sameProcess k slot

/-- No step writes to the name and the arguments of a process. -/
theorem systemStep_text {event : SystemEvent} {answer : SystemAnswer}
    (hstep : systemStep img layout k event = some (next, answer))
    {slot : Nat} (huse : (k.pcb slot).inUse = true) :
    (next.pcb slot).text = (k.pcb slot).text := by
  cases systemStep_cases hstep with
  | kernel event outcome hentry => exact kernelEntry_text hentry huse
  | file event sess reply htable =>
      exact (withSession_sameProcess (tableStep_sameProcess htable)
        slot).text_eq
  | clock => exact (tickAll_sameProcess k slot).text_eq

end Text

end PsychOS
