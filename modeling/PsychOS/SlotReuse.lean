/-
Slots that are used again.  Nothing clears a PCB when a process gets it, so a
process starts with what the one before left open.  That is nothing, because
`halt` closes every descriptor and with the last clock turns the clock off.
-/
import PsychOS.BootMemory
import PsychOS.WholeSystem

namespace PsychOS

/-- The descriptors of a process, with the clock on only if it has one open. -/
structure Tidy (fa : Nat → FileDesc) (rtcEnabled : Bool) : Prop where
  shape : TableShape fa
  clock : rtcEnabled = true → ∃ fd, 2 ≤ fd ∧ fd < maxFileDescriptors ∧
    (fa fd).inUse = true ∧ (fa fd).fops = some .rtc

/-- What is in a slot no process has. -/
structure Vacant (fa : Nat → FileDesc) (rtcEnabled : Bool) : Prop where
  free : ∀ fd, 2 ≤ fd → fd < maxFileDescriptors → (fa fd).inUse = false
  clock : rtcEnabled = false

/-- What a process should find when it starts. -/
structure Unused (fa : Nat → FileDesc) (rtcEnabled : Bool) : Prop where
  table : FreshTable fa
  clock : rtcEnabled = false

section Closing

variable {pcb : Pcb}

theorem Unused.tidy {fa : Nat → FileDesc} {rtcEnabled : Bool}
    (hunused : Unused fa rtcEnabled) : Tidy fa rtcEnabled where
  shape := hunused.table.shape
  clock := by
    intro hon
    rw [hunused.clock] at hon
    cases hon

theorem Vacant.open_std (hvacant : Vacant pcb.fa pcb.rtcEnabled) :
    Unused (openStdinAndStdout pcb).fa (openStdinAndStdout pcb).rtcEnabled :=
  ⟨openStdinAndStdout_fresh hvacant.free, hvacant.clock⟩

theorem syscallOpen_tidy (img : Image) (htidy : Tidy pcb.fa pcb.rtcEnabled)
    (filename : Memory UInt8) :
    Tidy (syscallOpen img pcb filename).1.fa
      (syscallOpen img pcb filename).1.rtcEnabled where
  shape := syscallOpen_shape htidy.shape filename
  clock := by
    rcases syscallOpen_cases img pcb filename with
      ⟨heq, -⟩ | ⟨fd, dentry, hlt, hfree, -, -, -, heq⟩
    · rw [heq]
      exact htidy.clock
    · rw [heq]
      intro hon
      cases hfops : fopsTable dentry.fileType with
      | rtc =>
          refine ⟨fd, htidy.shape.first_free hfree, hlt, ?_⟩
          simp [Pcb.setFd, FileDesc.inUse]
      | stdin | stdout | dir | file =>
          rw [hfops] at hon
          obtain ⟨clock, hlo, hhi, huse, hrtc⟩ := htidy.clock hon
          have hne : clock ≠ fd := by
            rintro rfl
            rw [hfree] at huse
            cases huse
          refine ⟨clock, hlo, hhi, ?_⟩
          simp [Pcb.setFd, Function.update_of_ne hne, huse, hrtc]

theorem syscallClose_tidy (htidy : Tidy pcb.fa pcb.rtcEnabled) (fd : Int) :
    Tidy (syscallClose pcb fd).1.fa (syscallClose pcb fd).1.rtcEnabled where
  shape := syscallClose_shape htidy.shape fd
  clock := by
    rcases syscallClose_cases pcb fd with ⟨heq, -⟩ | ⟨f, fops, hopen, -, heq⟩
    · rw [heq]
      exact htidy.clock
    · rw [heq]
      intro hon
      obtain ⟨-, -, rfl, -, hfops⟩ := openFd_inv hopen
      cases fops with
      | rtc =>
          -- `rtc_close` turns the clock off, even with another one open
          cases hon
      | stdin | stdout | dir | file =>
          obtain ⟨clock, hlo, hhi, huse, hrtc⟩ := htidy.clock hon
          have hne : clock ≠ fd.toNat := by
            rintro rfl
            rw [hfops] at hrtc
            cases hrtc
          refine ⟨clock, hlo, hhi, ?_⟩
          simp [Pcb.setFd, Function.update_of_ne hne, huse, hrtc]

/-- In a table of the usual shape a close leaves the descriptor free. -/
theorem syscallClose_frees (hshape : TableShape pcb.fa) {fd : Nat}
    (hlo : 2 ≤ fd) (hhi : fd < maxFileDescriptors) :
    ((syscallClose pcb fd).1.fa fd).inUse = false := by
  rcases syscallClose_cases pcb fd with ⟨heq, hwhy⟩ | ⟨f, fops, hopen, -, heq⟩
  · rw [heq]
    by_contra huse
    rw [Bool.not_eq_false] at huse
    obtain ⟨fops, hfops, hclose⟩ := hshape.opened fd hlo hhi huse
    rw [hwhy _ _ (openFd_eq_some hhi huse hfops)] at hclose
    cases hclose
  · rw [heq]
    simp only [closeHandler_fa, Pcb.setFd, Int.toNat_natCast,
      Function.update_self]
    exact closed_not_inUse f

theorem closeDescriptors_upto (htidy : Tidy pcb.fa pcb.rtcEnabled) {n : Nat}
    (hn : n ≤ maxFileDescriptors) :
    let closed := (List.range n).foldl
      (fun pcb (fd : Nat) => (syscallClose pcb fd).1) pcb
    Tidy closed.fa closed.rtcEnabled ∧
      ∀ fd, 2 ≤ fd → fd < n → (closed.fa fd).inUse = false := by
  induction n with
  | zero => exact ⟨htidy, fun fd _ hnone => absurd hnone (Nat.not_lt_zero fd)⟩
  | succ n ih =>
      obtain ⟨hbefore, hclosed⟩ := ih (by omega)
      rw [List.range_succ, List.foldl_append]
      refine ⟨syscallClose_tidy hbefore n, fun fd hlo hhi => ?_⟩
      -- closing the last one does not open the ones before
      by_cases hlast : fd = n
      · subst hlast
        exact syscallClose_frees hbefore.shape hlo (by omega)
      · have hother : (n : Int) ≠ fd := by omega
        rw [List.foldl_cons, List.foldl_nil, syscallClose_other hother]
        exact hclosed fd hlo (by omega)

/-- Once everything is closed the clock is off. -/
theorem closeDescriptors_vacant (htidy : Tidy pcb.fa pcb.rtcEnabled) :
    Vacant (closeDescriptors pcb).fa (closeDescriptors pcb).rtcEnabled := by
  obtain ⟨hafter, hfree⟩ := closeDescriptors_upto htidy (Nat.le_refl _)
  refine ⟨hfree, ?_⟩
  by_contra hon
  rw [Bool.not_eq_false] at hon
  obtain ⟨fd, hlo, hhi, huse, -⟩ := hafter.clock hon
  rw [hfree fd hlo hhi] at huse
  cases huse

end Closing

section Calls

variable {fa other : Nat → FileDesc} {rtcEnabled : Bool}

/-- Positions do not matter. -/
theorem Tidy.congr (htidy : Tidy fa rtcEnabled)
    (hsame : ∀ fd, ∃ position,
      other fd = { fa fd with filePosition := position }) :
    Tidy other rtcEnabled where
  shape := htidy.shape.congr hsame
  clock := by
    intro hon
    obtain ⟨fd, hlo, hhi, huse, hrtc⟩ := htidy.clock hon
    obtain ⟨position, heq⟩ := hsame fd
    exact ⟨fd, hlo, hhi, by rw [heq]; exact huse, by rw [heq]; exact hrtc⟩

theorem tableStep_tidy {img : Image} {sess next : Session}
    {event : TableEvent} {reply : Reply}
    (htidy : Tidy sess.pcb.fa sess.pcb.rtcEnabled)
    (hstep : tableStep img sess event = some (next, reply)) :
    Tidy next.pcb.fa next.pcb.rtcEnabled := by
  cases tableStep_cases hstep with
  | openFile name => exact syscallOpen_tidy img htidy _
  | closeFile fd => exact syscallClose_tidy htidy fd
  | readFile fd buf nbytes outcome hread =>
      have hsame := syscallRead_desc hread
      obtain ⟨position, ticks, hpcb⟩ := syscallRead_pcb hread
      have hclock : outcome.pcb.rtcEnabled = sess.pcb.rtcEnabled := by
        rw [hpcb]
        rfl
      dsimp only
      rw [hclock]
      exact htidy.congr hsame
  | keyTyped terminal ch => exact htidy
  | rtcTick =>
      dsimp only [rtcHandler]
      split <;> exact htidy
  | writeFile user fd buf nbytes =>
      obtain ⟨interval, hpcb⟩ :=
        @syscallWrite_pcb sess.pcb sess.tty user buf nbytes fd
      dsimp only
      rw [hpcb]
      exact htidy

end Calls

/-- A PCB in order: of a process, or free.  A process that waits for its first
turn has done nothing yet. -/
structure CleanPcb (current : Prop) (pcb : Pcb) : Prop where
  used : pcb.inUse = true → Tidy pcb.fa pcb.rtcEnabled
  free : pcb.inUse = false → Vacant pcb.fa pcb.rtcEnabled
  waiting : pcb.inUse = true → ¬ current → pcb.esp = 0 →
    Unused pcb.fa pcb.rtcEnabled

def CleanSlots (k : Kernel) : Prop :=
  ∀ slot < maxProcesses, CleanPcb (slot = k.current) (k.pcb slot)

section CleanPcb

variable {current after : Prop} {pcb next : Pcb}

theorem CleanPcb.of_unused (hunused : Unused pcb.fa pcb.rtcEnabled)
    (huse : pcb.inUse = true) : CleanPcb current pcb where
  used := fun _ => hunused.tidy
  free := by
    intro hfree
    rw [huse] at hfree
    cases hfree
  waiting := fun _ _ _ => hunused

theorem CleanPcb.of_vacant (hvacant : Vacant pcb.fa pcb.rtcEnabled)
    (hfree : pcb.inUse = false) : CleanPcb current pcb where
  used := by
    intro huse
    rw [hfree] at huse
    cases huse
  free := fun _ => hvacant
  waiting := by
    intro huse
    rw [hfree] at huse
    cases huse

/-- A process that goes on, or whose registers are saved, has run. -/
theorem CleanPcb.running (htidy : Tidy pcb.fa pcb.rtcEnabled)
    (huse : pcb.inUse = true) (hran : current ∨ pcb.esp ≠ 0) :
    CleanPcb current pcb where
  used := fun _ => htidy
  free := by
    intro hfree
    rw [huse] at hfree
    cases hfree
  waiting := fun _ hnot hesp =>
    (hran.elim hnot fun hne => hne hesp).elim

theorem CleanPcb.mono (hclean : CleanPcb current pcb)
    (himp : current → after) : CleanPcb after pcb :=
  ⟨hclean.used, hclean.free, fun huse hnot =>
    hclean.waiting huse (mt himp hnot)⟩

end CleanPcb

/-- A process at its start: on the stack of its slot, with nothing from
before. -/
structure AtStart (k : Kernel) (slot : Nat) : Prop where
  lt : slot < maxProcesses
  stack : k.esp = getKernelStackBaseFromSlot (k.pcb slot).slotNum
  unused : Unused (k.pcb slot).fa (k.pcb slot).rtcEnabled

section Steps

variable {img : Image} {layout : Layout} {k next : Kernel}

/-- Entries of other slots are not affected by which process runs next. -/
theorem CleanSlots.other (hclean : CleanSlots k) {slot : Nat}
    (hslot : slot < maxProcesses) (hne : slot ≠ k.current) {after : Prop} :
    CleanPcb after (k.pcb slot) :=
  (hclean slot hslot).mono fun heq => absurd heq hne

theorem contextSwitch_clean {target esp ebp : Nat} (hclean : CleanSlots k)
    (huse : (k.pcb k.current).inUse = true) (hesp : esp ≠ 0) :
    CleanSlots (contextSwitch layout k k.current target esp ebp).1 := by
  intro slot hslot
  rw [contextSwitch_pcb]
  by_cases hcurrent : slot = k.current
  · subst hcurrent
    rw [Function.update_self]
    exact .running ((hclean _ hslot).used huse) huse (Or.inr hesp)
  · rw [Function.update_of_ne hcurrent]
    exact hclean.other hslot hcurrent

/-- A process that a switch enters at its start has not run before. -/
theorem contextSwitch_atStart {target esp ebp slot entrypoint : Nat}
    (hclean : CleanSlots k) (hesp : esp ≠ 0) (htarget : target < maxProcesses)
    (huse : (k.pcb target).inUse = true)
    (hentered : (contextSwitch layout k k.current target esp ebp).2 =
      .entered slot entrypoint) :
    AtStart (contextSwitch layout k k.current target esp ebp).1 slot := by
  obtain ⟨rfl, hzero, hstack⟩ := contextSwitch_entered hentered
  refine ⟨htarget, hstack, ?_⟩
  rw [contextSwitch_pcb] at hzero ⊢
  by_cases hcurrent : slot = k.current
  · -- a switch to the process itself finds the registers just saved
    rw [hcurrent, Function.update_self] at hzero
    exact absurd hzero hesp
  · rw [Function.update_of_ne hcurrent] at hzero ⊢
    exact (hclean slot htarget).waiting huse hcurrent hzero

/-- Name, number and status have nothing to do with it. -/
theorem CleanPcb.congr {current : Prop} {pcb : Pcb}
    (hclean : CleanPcb current pcb) (text : Memory UInt8) (slotNum : Nat)
    (status : Status) : CleanPcb current
      { pcb with text := text, slotNum := slotNum, status := status } :=
  ⟨hclean.used, hclean.free, hclean.waiting⟩

theorem naming_clean {command : List UInt8}
    (hfits : commandEnd command ≤ entrypointOffset) (hclean : CleanSlots k)
    (child : Nat) (pages : Memory UInt8) :
    CleanSlots { k.modify child fun _ => k.namedPcb command child with
      pages := pages } := by
  intro slot hslot
  change CleanPcb (slot = k.current)
    (Function.update k.pcb child (k.namedPcb command child) slot)
  by_cases hnamed : slot = child
  · subst hnamed
    rw [Function.update_self, Kernel.namedPcb, parseCommand_text hfits]
    exact (hclean slot hslot).congr _ slot (k.pcb slot).status
  · rw [Function.update_of_ne hnamed]
    exact hclean slot hslot

/-- The new process takes a slot that was left in order. -/
theorem startProcess_clean {child entrypoint esp ebp : Nat} {junk : Junk}
    (hclean : CleanSlots k) (hchild : child < maxProcesses)
    (hfree : (k.pcb child).inUse = false)
    (huse : (k.pcb k.current).inUse = true) (hesp : esp ≠ 0) :
    CleanSlots
        (startProcess layout k k.current child entrypoint esp ebp junk) ∧
      AtStart (startProcess layout k k.current child entrypoint esp ebp junk)
        child := by
  have hne : child ≠ k.current := by
    rintro rfl
    rw [hfree] at huse
    cases huse
  have hunused := Vacant.open_std ((hclean child hchild).free hfree)
  have hstart : AtStart
      (startProcess layout k k.current child entrypoint esp ebp junk)
      child := by
    refine ⟨hchild, ?_, ?_⟩
    · rw [startProcess_esp, startProcess_pcb hne, Function.update_of_ne hne,
        Function.update_self]
      rfl
    · rw [startProcess_pcb hne, Function.update_of_ne hne,
        Function.update_self]
      exact hunused
  refine ⟨fun slot hslot => ?_, hstart⟩
  rw [startProcess_pcb hne]
  by_cases hcurrent : slot = k.current
  · subst hcurrent
    rw [Function.update_self]
    exact .running ((hclean _ hslot).used huse) huse (Or.inr hesp)
  · rw [Function.update_of_ne hcurrent]
    by_cases hnew : slot = child
    · rw [hnew, Function.update_self]
      exact .of_unused hunused rfl
    · rw [Function.update_of_ne hnew]
      exact hclean.other hslot hcurrent

theorem execute_clean {command : List UInt8} {esp ebp : Nat} {junk : Junk}
    {outcome : Outcome} (hclean : CleanSlots k)
    (huse : (k.pcb k.current).inUse = true) (hesp : esp ≠ 0)
    (hfits : commandEnd command ≤ entrypointOffset)
    (hcall : syscallExecute img layout k command esp ebp junk =
      (next, outcome)) :
    CleanSlots next ∧ ∀ slot entrypoint,
      outcome = .entered slot entrypoint → AtStart next slot := by
  rcases syscallExecute_inv hcall with ⟨rfl, rfl⟩ | ⟨child, hfree, hcase⟩
  · exact ⟨hclean, fun _ _ hnone => nomatch hnone⟩
  · have hloading := naming_clean hfits hclean child
      (loadProgramIntoSlot img k.pages (k.namedPcb command child).text
        (k.namedPcb command child).slotNum).1
    rcases hcase with ⟨rfl, rfl⟩ | ⟨entrypoint, rfl, rfl⟩
    · exact ⟨hloading, fun _ _ hnone => nomatch hnone⟩
    · obtain ⟨hlt, hunused⟩ := freeSlot_spec hfree
      have hkeep : (k.namedPcb command child).inUse =
          (k.pcb child).inUse := by
        rw [Kernel.namedPcb, parseCommand_text hfits]
      have hsame (slot : Nat) :=
        update_keeps Pcb.inUse k.pcb hkeep slot
      obtain ⟨hnext, hstart⟩ := @startProcess_clean layout _ child entrypoint
        esp ebp junk hloading hlt ((hsame child).trans hunused)
        ((hsame k.current).trans huse) hesp
      refine ⟨hnext, fun slot address hentered => ?_⟩
      obtain ⟨rfl, -⟩ := Outcome.entered.inj hentered
      exact hstart

theorem release_vacant (hclean : CleanSlots k)
    (hcurrent : k.current < maxProcesses)
    (huse : (k.pcb k.current).inUse = true) :
    Vacant ((release k k.current).pcb k.current).fa
      ((release k k.current).pcb k.current).rtcEnabled := by
  rw [release_pcb, Function.update_self]
  exact closeDescriptors_vacant ((hclean _ hcurrent).used huse)

theorem release_other {slot : Nat} (hne : slot ≠ k.current) :
    (release k k.current).pcb slot = k.pcb slot := by
  rw [release_pcb, Function.update_of_ne hne]

/-- A root program that is started again finds its slot as a new process
would. -/
theorem restart_clean (hclean : CleanSlots k)
    (hlt : k.current < maxProcesses)
    (hvacant : Vacant ((release k k.current).pcb k.current).fa
      ((release k k.current).pcb k.current).rtcEnabled) :
    CleanSlots (restartProgram layout (release k k.current) k.current).1 ∧
      AtStart (restartProgram layout (release k k.current) k.current).1
        k.current := by
  have hunused := Vacant.open_std hvacant
  have hstart : AtStart
      (restartProgram layout (release k k.current) k.current).1
      k.current := by
    refine ⟨hlt, rfl, ?_⟩
    rw [restartProgram_pcb, Function.update_self]
    exact hunused
  refine ⟨fun slot hslot => ?_, hstart⟩
  rw [restartProgram_pcb]
  by_cases hcurrent : slot = k.current
  · rw [hcurrent, Function.update_self]
    exact .of_unused hunused rfl
  · rw [Function.update_of_ne hcurrent, release_other hcurrent]
    exact hclean.other hslot hcurrent

theorem return_clean {parent : Nat} {status : Int} (hclean : CleanSlots k)
    (hvacant : Vacant ((release k k.current).pcb k.current).fa
      ((release k k.current).pcb k.current).rtcEnabled) :
    CleanSlots
      (returnToParent (release k k.current) k.current parent status).1 := by
  intro slot hslot
  obtain ⟨moved, hmoved⟩ :=
    returnToParent_pcb (release k k.current) k.current parent status slot
  rw [hmoved]
  by_cases hcurrent : slot = k.current
  · have hfree : ((release k k.current).pcb k.current).inUse = false := by
      rw [release_pcb, Function.update_self]
      exact (closeDescriptors_sameProcess _).inUse_eq
    rw [hcurrent]
    exact .of_vacant hvacant hfree
  · rw [release_other hcurrent]
    exact (hclean.other hslot hcurrent).congr (k.pcb slot).text
      (k.pcb slot).slotNum moved

theorem halt_clean {status : Int} {outcome : Outcome}
    (hclean : CleanSlots k) (hcurrent : k.current < maxProcesses)
    (huse : (k.pcb k.current).inUse = true)
    (hhalt : haltProgram layout k status = (next, outcome)) :
    CleanSlots next ∧ ∀ slot entrypoint,
      outcome = .entered slot entrypoint → AtStart next slot := by
  have hvacant := release_vacant hclean hcurrent huse
  unfold haltProgram at hhalt
  dsimp only at hhalt
  split at hhalt
  · obtain ⟨hnext, hunused⟩ := @restart_clean layout k hclean hcurrent hvacant
    obtain ⟨rfl, rfl⟩ := Prod.ext_iff.mp hhalt
    refine ⟨hnext, fun slot entrypoint hentered => ?_⟩
    obtain ⟨rfl, -⟩ := Outcome.entered.inj hentered
    exact hunused
  · obtain ⟨rfl, rfl⟩ := Prod.ext_iff.mp hhalt
    exact ⟨return_clean hclean hvacant, fun _ _ hnone => nomatch hnone⟩

theorem file_clean {event : TableEvent} {sess : Session} {reply : Reply}
    (hclean : CleanSlots k) (hcurrent : k.current < maxProcesses)
    (huse : (k.pcb k.current).inUse = true)
    (hstep : tableStep img k.session event = some (sess, reply)) :
    CleanSlots (k.withSession sess) := by
  intro slot hslot
  change CleanPcb (slot = k.current)
    (Function.update k.pcb k.current sess.pcb slot)
  by_cases hself : slot = k.current
  · rw [hself, Function.update_self]
    have htidy : Tidy sess.pcb.fa sess.pcb.rtcEnabled :=
      tableStep_tidy ((hclean _ hcurrent).used huse) hstep
    exact .running htidy ((tableStep_sameProcess hstep).inUse_eq.trans huse)
      (Or.inl rfl)
  · rw [Function.update_of_ne hself]
    exact hclean slot hslot

theorem tickAll_clean (hclean : CleanSlots k) : CleanSlots (tickAll k) := by
  intro slot hslot
  have hcurrent : (tickAll k).current = k.current := by
    rw [tickAll_eq]
    rfl
  rw [hcurrent]
  refine @tickAll_rule
    (fun pcb next => CleanPcb (slot = k.current) pcb →
      CleanPcb (slot = k.current) next)
    (fun _ => id) (fun pcb hpcb => ?_) k slot (hclean slot hslot)
  rw [rtcHandler]
  split
  · exact ⟨hpcb.used, hpcb.free, hpcb.waiting⟩
  · exact hpcb

end Steps

section Runs

variable {img : Image} {layout : Layout} {k next : Kernel}
  {threads : ProcessThreads}

/-- File system calls and the clock do not show in the process table. -/
theorem represents_congr (hrep : Represents k.core.table k.current threads)
    (hsame : ∀ slot, (k.pcb slot).SameProcess (next.pcb slot))
    (hesp : next.esp = k.esp) :
    Represents next.core.table next.current threads := by
  have htable : next.core.table = k.core.table :=
    funext fun slot => (hsame slot).entry_eq
  rw [htable, Kernel.current, hesp]
  exact hrep

theorem systemStep_represents {event : SystemEvent} {answer : SystemAnswer}
    (hrep : Represents k.core.table k.current threads) (hfits : event.Fits)
    (hstep : systemStep img layout k event = some (next, answer)) :
    ∃ after, Represents next.core.table next.current after := by
  cases systemStep_cases hstep with
  | kernel event outcome hentry =>
      have hkernel : kernelStep img layout k event = some (next, outcome) :=
        (if_pos hfits).trans hentry
      obtain ⟨after, -, hafter⟩ :=
        represents_step hrep (kernelStep_coreStep hrep.slotNum hkernel)
      exact ⟨after, hafter⟩
  | file event sess reply htable =>
      exact ⟨threads, represents_congr hrep
        (withSession_sameProcess (tableStep_sameProcess htable)) rfl⟩
  | clock =>
      exact ⟨threads, represents_congr hrep (tickAll_sameProcess k)
        (by rw [tickAll_eq])⟩

/-- One step keeps the slots in order, and whoever it enters starts with the
two standard descriptors. -/
theorem systemStep_clean {event : SystemEvent} {answer : SystemAnswer}
    (hrep : Represents k.core.table k.current threads)
    (hclean : CleanSlots k) (hfits : event.Fits)
    (hstep : systemStep img layout k event = some (next, answer)) :
    CleanSlots next ∧ ∀ slot entrypoint,
      answer = .kernel (.entered slot entrypoint) → AtStart next slot := by
  obtain ⟨hcurrent, huse, -⟩ := hrep.current_process
  cases systemStep_cases hstep with
  | kernel event outcome hentry =>
      simp only [SystemAnswer.kernel.injEq]
      cases kernelEntry_cases hentry with
      | switched target esp ebp hevent hstack htarget hready =>
          exact ⟨contextSwitch_clean hclean huse hstack.1,
            fun slot entrypoint hentered => contextSwitch_atStart hclean
              hstack.1 htarget hready hentered⟩
      | unswitched esp ebp => exact ⟨hclean, fun _ _ hnone => nomatch hnone⟩
      | executed command esp ebp junk hstack hcall =>
          exact execute_clean hclean huse hstack.1 hfits hcall
      | halted status hevent hhalt =>
          exact halt_clean hclean hcurrent huse hhalt
      | activated newTerminal =>
          exact ⟨hclean, fun _ _ hnone => nomatch hnone⟩
  | file event sess reply htable =>
      exact ⟨file_clean hclean hcurrent huse htable,
        fun _ _ hnone => nomatch hnone⟩
  | clock => exact ⟨tickAll_clean hclean, fun _ _ hnone => nomatch hnone⟩

/-- Everything one step needs, along every run. -/
theorem run_clean {start : Kernel} {transitions : List SystemTransition}
    (hrep : ∃ threads, Represents start.core.table start.current threads)
    (hclean : CleanSlots start)
    (hexec : Execution (systemStep img layout) start transitions next)
    (hfits : ∀ step ∈ transitions, step.event.Fits) :
    (∃ threads, Represents next.core.table next.current threads) ∧
      CleanSlots next ∧ ∀ step ∈ transitions, ∀ slot entrypoint,
        step.answer = .kernel (.entered slot entrypoint) →
          step.after.current = slot ∧
            Unused (step.after.pcb slot).fa
              (step.after.pcb slot).rtcEnabled := by
  induction hexec with
  | nil => exact ⟨hrep, hclean, fun _ hnone => nomatch hnone⟩
  | @concat earlier state next event answer hearlier hstep ih =>
      have hlast := hfits _ List.mem_concat_self
      obtain ⟨⟨threads, hbefore⟩, hkept, hentered⟩ :=
        ih fun step hmem => hfits step (List.mem_append_left _ hmem)
      obtain ⟨after, hafter⟩ := systemStep_represents hbefore hlast hstep
      obtain ⟨hnext, hstarts⟩ := systemStep_clean hbefore hkept hlast hstep
      refine ⟨⟨after, hafter⟩, hnext, fun step hmem slot entrypoint => ?_⟩
      rcases List.mem_append.mp hmem with hold | hnew
      · exact hentered step hold slot entrypoint
      · obtain rfl := List.mem_singleton.mp hnew
        intro hanswer
        obtain ⟨hlt, hstack, hunused⟩ := hstarts slot entrypoint hanswer
        have hslotNum : (next.pcb slot).slotNum = slot :=
          hafter.slotNum slot hlt
        refine ⟨?_, hunused⟩
        rw [Kernel.current, hstack, hslotNum]
        exact slotOfEsp_base hlt

end Runs

/-- The states in which the first program is entered, after a boot over
zero-filled PCBs. -/
def ZeroBooted (img : Image) (layout : Layout) (k : Kernel) : Prop :=
  ∃ (command : List UInt8) (junk : Nat → Junk) (memory : Kernel),
    commandEnd command ≤ entrypointOffset ∧
    (∀ slot < maxProcesses, memory.pcb slot = Pcb.zeroed) ∧
    kernelRunFirstProgram img layout command junk memory = some k

section ZeroBooted

variable {img : Image} {layout : Layout} {k : Kernel}

theorem ZeroBooted.booted (hboot : ZeroBooted img layout k) :
    Booted img layout k := by
  obtain ⟨command, junk, memory, hfits, hzero, hrun⟩ := hboot
  refine ⟨command, junk, memory, hfits, fun slot _ hroot => ?_, hrun⟩
  rw [hzero slot (Nat.lt_trans hroot (by decide))]
  rfl

/-- A root program starts with its standard descriptors opened over zeroes. -/
theorem ZeroBooted.root (hboot : ZeroBooted img layout k) {slot : Nat}
    (hslot : slot < numTerminals) :
    (k.pcb slot).fa = (openStdinAndStdout Pcb.zeroed).fa ∧
      Unused (k.pcb slot).fa (k.pcb slot).rtcEnabled := by
  obtain ⟨command, junk, memory, hfits, hzero, hrun⟩ := hboot
  have hroots := (kernelRunFirstProgram_other hfits hrun memory.pcb).1
  have hvacant : Vacant Pcb.zeroed.fa Pcb.zeroed.rtcEnabled :=
    ⟨fun _ _ _ => rfl, rfl⟩
  have hlt : slot < maxProcesses := Nat.lt_trans hslot (by decide)
  obtain ⟨hclock, -, hfa⟩ := hroots.kept hfits hlt
  rw [if_pos hslot, hzero slot hlt] at hfa
  refine ⟨hfa, ?_⟩
  rw [hfa, hclock, hzero slot hlt]
  exact Vacant.open_std hvacant

theorem ZeroBooted.clean (hboot : ZeroBooted img layout k) :
    CleanSlots k := by
  have hroot {slot : Nat} (hslot : slot < numTerminals) :=
    (hboot.root hslot).2
  obtain ⟨command, junk, memory, hfits, hzero, hrun⟩ := hboot
  have hroots := (kernelRunFirstProgram_other hfits hrun memory.pcb).1
  intro slot hslot
  have huse := (hroots.used hslot).1
  by_cases hstarted : slot < numTerminals
  · rw [decide_eq_true hstarted] at huse
    exact .of_unused (hroot hstarted) huse
  · obtain ⟨hclock, -, hfa⟩ := hroots.kept hfits hslot
    rw [if_neg hstarted] at hfa
    rw [decide_eq_false hstarted] at huse
    refine .of_vacant ?_ huse
    rw [hfa, hclock, hzero slot hslot]
    exact ⟨fun _ _ _ => rfl, rfl⟩

end ZeroBooted

/-- As long as every command has room, each process that is entered at its
start has the two standard descriptors and no clock, whoever had its slot
before. -/
theorem entered_process_unused {img : Image} {layout : Layout}
    {start final : Kernel} {transitions : List SystemTransition}
    (hboot : ZeroBooted img layout start)
    (hexec : Execution (systemStep img layout) start transitions final)
    (hfits : ∀ step ∈ transitions, step.event.Fits) :
    (start.current = 0 ∧ Unused (start.pcb 0).fa (start.pcb 0).rtcEnabled) ∧
      ∀ step ∈ transitions, ∀ slot entrypoint,
        step.answer = .kernel (.entered slot entrypoint) →
          step.after.current = slot ∧
            Unused (step.after.pcb slot).fa
              (step.after.pcb slot).rtcEnabled := by
  have hunused := (hboot.root (by decide : 0 < numTerminals)).2
  have hrep := hboot.booted.represents
  obtain ⟨-, -, hentered⟩ := run_clean ⟨_, hrep⟩ hboot.clean hexec hfits
  exact ⟨⟨hboot.booted.starting.2.1, hunused⟩, hentered⟩

theorem sampleKernel_zeroBooted :
    ZeroBooted shellImage sampleLayout sampleKernel :=
  ⟨[115], fun _ => Junk.zero, Kernel.zeroed, by decide, fun _ _ => rfl,
    sampleKernel_eq⟩

/-- A program opens a file and halts, and the next one gets its slot. -/
def reuseEvents : List SystemEvent :=
  [.kernel (.execute [115] (sampleEsp 0) 0 Junk.zero),
    .file (.call (.openFile [115])), .kernel (.halt 0),
    .kernel (.execute [115] (sampleEsp 0) 0 Junk.zero)]

theorem reusedSlot_unused : ∃ transitions final,
    Execution (systemStep shellImage sampleLayout) sampleKernel transitions
        final ∧
      transitions.map Transition.event = reuseEvents ∧
      ∃ step, transitions[3]? = some step ∧
        step.answer = .kernel (.entered 3 0x8040000) ∧
        step.after.current = 3 ∧
        Unused (step.after.pcb 3).fa (step.after.pcb 3).rtcEnabled := by
  have hrun : ((trace (systemStep shellImage sampleLayout) sampleKernel
      reuseEvents).bind fun result => result.1[3]?.map Transition.answer) =
        some (.kernel (.entered 3 0x8040000)) := by decide +kernel
  have hall : ∀ event ∈ reuseEvents, event.Fits := by decide
  obtain ⟨⟨transitions, final⟩, htrace, hmap⟩ :=
    Option.bind_eq_some_iff.mp hrun
  obtain ⟨step, hget, hanswer⟩ := Option.map_eq_some_iff.mp hmap
  obtain ⟨hexec, hevents⟩ := trace_execution htrace
  have hfits : ∀ step ∈ transitions, step.event.Fits := fun step hmem =>
    hall step.event (trace_event_mem htrace hmem)
  obtain ⟨-, hentered⟩ :=
    entered_process_unused sampleKernel_zeroBooted hexec hfits
  exact ⟨transitions, final, hexec, hevents, step, hget, hanswer,
    hentered step (List.mem_of_getElem? hget) 3 _ hanswer⟩

/-- The process in slot 3 runs as the one in slot 5, which is free, and opens
files there before the slot is given away. -/
def strayEvents : List SystemEvent :=
  [.kernel (.execute (overrunCommand 115 5) (sampleEsp 0) 0 Junk.zero),
    .file (.call (.openFile [115])), .file (.call (.openFile [115])),
    .file (.call (.openFile [115])),
    .kernel (.execute [115] (sampleEsp 5) 0 Junk.zero),
    .kernel (.execute [115] (sampleEsp 4) 0 Junk.zero)]

theorem stray_descriptor_left_open : ∃ transitions final,
    Execution (systemStep shellImage sampleLayout) sampleKernel transitions
        final ∧
      transitions.map Transition.event = strayEvents ∧
      ∃ step, transitions[5]? = some step ∧
        step.answer = .kernel (.entered 5 0x8040000) ∧
        ((step.after.pcb 5).fa 2).inUse = true := by
  have hrun : ((trace (systemStep shellImage sampleLayout) sampleKernel
      strayEvents).bind fun result => result.1[5]?.map fun step =>
        (step.answer, ((step.after.pcb 5).fa 2).inUse)) =
      some (.kernel (.entered 5 0x8040000), true) := by decide +kernel
  obtain ⟨⟨transitions, final⟩, htrace, hmap⟩ :=
    Option.bind_eq_some_iff.mp hrun
  obtain ⟨step, hget, heq⟩ := Option.map_eq_some_iff.mp hmap
  obtain ⟨hanswer, hopen⟩ := Prod.mk.inj heq
  obtain ⟨hexec, hevents⟩ := trace_execution htrace
  exact ⟨transitions, final, hexec, hevents, step, hget, hanswer, hopen⟩

end PsychOS
