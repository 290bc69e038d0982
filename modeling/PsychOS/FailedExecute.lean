/-
An `execute` that fails.  It has written to a PCB and copied a file by then,
but the PCB is that of a free slot and the file went into that slot's page.
-/
import PsychOS.WholeSystem

namespace PsychOS

/-- The address is in the page of the slot. -/
def InSlotPage (slot addr : Nat) : Prop :=
  getProcessPageFromSlot slot ≤ addr ∧
    addr < getProcessPageFromSlot slot + processPageSize

/-- All that may differ is the page of one free slot and, in its PCB, the name
and the arguments of the program and the number of the slot, which is then its
own. -/
def FreeSlotWritten (k next : Kernel) (child : Nat) : Prop :=
  child < maxProcesses ∧ (k.pcb child).inUse = false ∧
    (∃ text : Memory UInt8,
      (∀ offset, entrypointOffset ≤ offset →
        text offset = (k.pcb child).text offset) ∧
      next.pcb child = { k.pcb child with slotNum := child, text := text }) ∧
    (∀ slot, slot ≠ child → next.pcb slot = k.pcb slot) ∧
    ∀ addr, ¬ InSlotPage child addr → next.pages addr = k.pages addr

/-- What a failed `execute` leaves as it was. -/
structure NothingVisible (k next : Kernel) : Prop where
  inUse_pcb : ∀ slot, (k.pcb slot).inUse = true → next.pcb slot = k.pcb slot
  inUse_page : ∀ slot, (k.pcb slot).inUse = true →
    ∀ addr, InSlotPage slot addr → next.pages addr = k.pages addr
  paging : next.paging = k.paging
  esp0 : next.esp0 = k.esp0
  cr3 : next.cr3 = k.cr3
  nextPid : next.nextPid = k.nextPid
  tty : next.tty = k.tty
  inUse_iff : ∀ slot, (next.pcb slot).inUse = (k.pcb slot).inUse
  written : next = k ∨ ∃ child, FreeSlotWritten k next child

section Writes

variable {img : Image} {layout : Layout} {k next : Kernel}

theorem loadProgramIntoSlot_pages (pages filename : Memory UInt8)
    (slot : Nat) :
    (loadProgramIntoSlot img pages filename slot).1 =
      pages.storeList (getProcessPageFromSlot slot + processLinkOffset)
        (img.readFileByName filename
          (processPageSize - processLinkOffset)).2 := by
  unfold loadProgramIntoSlot
  dsimp only
  split
  · rfl
  · split <;> rfl

/-- The loader's limit keeps a file inside the page of the slot, behind the
place where programs start, whatever the image says about its length. -/
theorem loadProgramIntoSlot_unwritten (pages filename : Memory UInt8)
    {slot addr : Nat}
    (houtside : addr < getProcessPageFromSlot slot + processLinkOffset ∨
      getProcessPageFromSlot slot + processPageSize ≤ addr) :
    (loadProgramIntoSlot img pages filename slot).1 addr = pages addr := by
  have hlength : (img.readFileByName filename
      (processPageSize - processLinkOffset)).2.length ≤
        processPageSize - processLinkOffset := by
    rw [Image.readFileByName]
    split
    · exact Nat.zero_le _
    · exact readData_stored_le _ _ _
  rw [loadProgramIntoSlot_pages]
  apply Memory.storeList_of_outside
  simp only [processPageSize, processLinkOffset] at *
  omega

theorem slotPage_disjoint {slot other addr : Nat} (hne : slot ≠ other)
    (haddr : InSlotPage slot addr) : ¬ InSlotPage other addr := by
  simp only [InSlotPage, getProcessPageFromSlot, kernelPageEnd,
    processPageSize] at *
  omega

theorem NothingVisible.refl (k : Kernel) : NothingVisible k k :=
  ⟨fun _ _ => rfl, fun _ _ _ _ => rfl, rfl, rfl, rfl, rfl, rfl, fun _ => rfl,
    Or.inl rfl⟩

theorem namedPcb_eq {command : List UInt8} (hlength : command.length ≤ 127)
    (k : Kernel) (child : Nat) :
    ∃ text : Memory UInt8,
      (∀ offset, entrypointOffset ≤ offset →
        text offset = (k.pcb child).text offset) ∧
      k.namedPcb command child =
        { k.pcb child with slotNum := child, text := text } := by
  have hfits := commandEnd_le_of_length hlength
  refine ⟨_, fun offset hoffset => ?_, parseCommand_text hfits _⟩
  rw [commandEnd] at hfits
  rw [Memory.storeList_of_outside, Memory.storeList_of_outside]
  · rw [nameField_length]
    omega
  · rw [argsField_length]
    omega

end Writes

/-- A failed `execute` of a command of at most 127 bytes changes nothing that
is in use; what it wrote is in one free slot. -/
theorem failed_execute_invisible {img : Image} {layout : Layout}
    {k next : Kernel} {command : List UInt8} {esp ebp : Nat} {junk : Junk}
    (hlength : command.length ≤ 127)
    (hfail : syscallExecute img layout k command esp ebp junk =
      (next, .returned (-1))) :
    NothingVisible k next := by
  rcases syscallExecute_failed hfail with rfl | ⟨child, hfree, rfl⟩
  · exact .refl next
  · obtain ⟨hlt, hunused⟩ := freeSlot_spec hfree
    obtain ⟨text, habove, hnamed⟩ := namedPcb_eq hlength k child
    rw [hnamed]
    have hother : ∀ slot, slot ≠ child → Function.update k.pcb child
        { k.pcb child with slotNum := child, text := text } slot =
          k.pcb slot := fun slot hne => Function.update_of_ne hne ..
    have hne : ∀ slot, (k.pcb slot).inUse = true → slot ≠ child := by
      rintro slot huse rfl
      rw [hunused] at huse
      cases huse
    have hpages : ∀ addr, ¬ InSlotPage child addr →
        (loadProgramIntoSlot img k.pages text child).1 addr =
          k.pages addr := by
      intro addr houtside
      rw [InSlotPage] at houtside
      exact loadProgramIntoSlot_unwritten k.pages text (by omega)
    refine ⟨?_, ?_, rfl, rfl, rfl, rfl, rfl, ?_, Or.inr ⟨child, hlt, hunused,
      ⟨text, habove, Function.update_self ..⟩, hother, hpages⟩⟩
    · exact fun slot huse => hother slot (hne slot huse)
    · exact fun slot huse addr haddr =>
        hpages addr (slotPage_disjoint (hne slot huse) haddr)
    · exact fun slot => update_keeps Pcb.inUse k.pcb (by rfl) slot

/-- A name that is not found, with the first three slots in use. -/
theorem unknownName_invisible : ∃ next,
    syscallExecute shellImage sampleLayout sampleKernel [120] (sampleEsp 0) 0
      Junk.zero = (next, .returned (-1)) ∧
    NothingVisible sampleKernel next := by
  have houtcome : (syscallExecute shellImage sampleLayout sampleKernel [120]
      (sampleEsp 0) 0 Junk.zero).2 = .returned (-1) := by decide +kernel
  cases hresult : syscallExecute shellImage sampleLayout sampleKernel [120]
      (sampleEsp 0) 0 Junk.zero with
  | mk next outcome =>
      rw [hresult] at houtcome
      subst houtcome
      exact ⟨next, rfl, failed_execute_invisible (by decide) hresult⟩

/-- A name that is not found, first with arguments that run on into the slot
number. -/
def failedExecutes : List KernelEvent :=
  [.execute (overrunCommand 120 5) (sampleEsp 0) 0 Junk.zero,
    .execute [120] (sampleEsp 0) 0 Junk.zero]

/-- After an `execute` with that command has failed, the next one that fails
also sets the number of the free slot back to its own. -/
theorem failed_execute_resets_slotNum : ∃ transitions final,
    Execution (kernelEntry shellImage sampleLayout) sampleKernel transitions
        final ∧
      transitions.map Transition.event = failedExecutes ∧
      transitions.map (fun step => (step.answer, (step.before.pcb 3).inUse,
          (step.before.pcb 3).slotNum, (step.after.pcb 3).slotNum)) =
        [(.returned (-1), false, 3, 5), (.returned (-1), false, 5, 3)] := by
  have hrun : (trace (kernelEntry shellImage sampleLayout) sampleKernel
      failedExecutes).map (fun result => result.1.map fun step =>
        (step.answer, (step.before.pcb 3).inUse,
          (step.before.pcb 3).slotNum, (step.after.pcb 3).slotNum)) =
      some [(.returned (-1), false, 3, 5),
        (.returned (-1), false, 5, 3)] := by decide +kernel
  obtain ⟨⟨transitions, final⟩, htrace, hsteps⟩ :=
    Option.map_eq_some_iff.mp hrun
  obtain ⟨hexec, hevents⟩ := trace_execution htrace
  exact ⟨transitions, final, hexec, hevents, hsteps⟩

end PsychOS
