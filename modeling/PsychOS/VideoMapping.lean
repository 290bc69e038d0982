/-
Where a program draws.  A program sees one page of video memory at 132MB; the
page table of its process says whether that is the screen or the buffer of its
terminal.  The entry is set when a program is started and when the timer
switches to it, but neither a change of the active terminal nor the return to a
parent sets it.
-/
import PsychOS.Boot

namespace PsychOS

/-- The frame entry 0 of the slot's page table maps. -/
def userVideoFrame (paging : Memory Nat) (slot : Nat) : Nat :=
  (PageEntry.ofVal (paging (getProcessPt slot / 4))).frame * 4096

/-- The current process sees the output buffer of its terminal. -/
def VideoMapped (layout : Layout) (k : Kernel) : Prop :=
  userVideoFrame k.paging k.current =
    getTerminalOutputBuffer layout k.tty k.currentPcb.terminalNum

/-- The last transition before which the process was the current one. -/
def lastRan (earlier : List (Transition Kernel KernelEvent Outcome))
    (slot : Nat) : Option (Transition Kernel KernelEvent Outcome) :=
  earlier.reverse.find? fun step => step.before.current = slot

/-- If the current process has a parent, the parent's terminal is shown now
exactly if it was when the parent last ran. -/
def ParentShownAsBefore
    (earlier : List (Transition Kernel KernelEvent Outcome)) (k : Kernel) :
    Prop :=
  ∀ parent ∈ k.currentPcb.parent, ∀ step ∈ lastRan earlier parent,
    (k.pcb parent).terminalNum = k.tty.activeTerminal ↔
      (k.pcb parent).terminalNum = step.before.tty.activeTerminal

/-- The kernel entries that leave the current process with the right frame.  A
`halt` that returns to a parent does if the parent's terminal is shown or not
as it was, and a change of the active terminal if the current process has no
part in it. -/
def KeepsVideoMapping
    (earlier : List (Transition Kernel KernelEvent Outcome)) (k : Kernel) :
    KernelEvent → Prop
  | .switchTerminal newTerminal => newTerminal < numTerminals →
      newTerminal ≠ k.tty.activeTerminal →
      k.currentPcb.terminalNum ≠ k.tty.activeTerminal ∧
        k.currentPcb.terminalNum ≠ newTerminal
  | .halt _ => ParentShownAsBefore earlier k
  | .exception => ParentShownAsBefore earlier k
  | _ => True

instance (layout : Layout) (k : Kernel) : Decidable (VideoMapped layout k) :=
  inferInstanceAs (Decidable (_ = _))

instance (earlier : List (Transition Kernel KernelEvent Outcome))
    (k : Kernel) : Decidable (ParentShownAsBefore earlier k) :=
  inferInstanceAs (Decidable (∀ parent ∈ k.currentPcb.parent,
    ∀ step ∈ lastRan earlier parent, _))

instance (earlier : List (Transition Kernel KernelEvent Outcome))
    (k : Kernel) : DecidablePred (KeepsVideoMapping earlier k)
  | .switchTerminal newTerminal =>
      inferInstanceAs (Decidable (newTerminal < numTerminals →
        newTerminal ≠ k.tty.activeTerminal → _ ∧ _))
  | .halt _ => inferInstanceAs (Decidable (ParentShownAsBefore earlier k))
  | .exception => inferInstanceAs (Decidable (ParentShownAsBefore earlier k))
  | .timer _ _ _ | .tick _ _ | .execute _ _ _ _ => isTrue trivial

section Frames

variable {layout : Layout} {c : Core} {mem : Memory Nat}
  {slot vmemAddr terminal : Nat}

theorem outputBuffer_legal (hterminal : terminal < numTerminals) :
    c.outputBuffer layout terminal % 4096 = 0 ∧
      c.outputBuffer layout terminal < 2 ^ 32 := by
  have haligned := layout.outputBuffer_aligned
  have hle := layout.outputBuffer_le
  simp only [numTerminals] at hterminal
  simp only [Core.outputBuffer, Layout.outputBufferOf, videoPhysAddr]
  split
  · decide
  · omega

theorem outputBufferOf_ne_video (terminal : Nat) :
    layout.outputBufferOf terminal ≠ videoPhysAddr := by
  have hge := layout.outputBuffer_ge
  simp only [Layout.outputBufferOf, videoPhysAddr]
  omega

/-- A terminal has the same buffer in two states if it is shown in both or in
neither. -/
theorem outputBuffer_eq_iff {d : Core} :
    c.outputBuffer layout terminal = d.outputBuffer layout terminal ↔
      (terminal = d.activeTerminal ↔ terminal = c.activeTerminal) := by
  have hne := @outputBufferOf_ne_video layout terminal
  rw [Core.outputBuffer, Core.outputBuffer]
  by_cases hthen : terminal = c.activeTerminal
  · by_cases hnow : terminal = d.activeTerminal
    · simp [← hthen, ← hnow]
    · simp [← hthen, hnow, Ne.symm hne]
  · by_cases hnow : terminal = d.activeTerminal
    · simp [← hnow, hthen, hne]
    · simp [hthen, hnow]

theorem lastRan_concat (earlier : List (Transition Kernel KernelEvent Outcome))
    (last : Transition Kernel KernelEvent Outcome) (slot : Nat) :
    lastRan (earlier ++ [last]) slot =
      if last.before.current = slot then some last
      else lastRan earlier slot := by
  rw [lastRan, List.reverse_append, List.reverse_singleton,
    List.singleton_append, List.find?_cons]
  by_cases hsame : last.before.current = slot
  · simp [hsame]
  · simp [hsame, lastRan]

theorem userVideoFrame_eq (hspace : AddressSpace layout mem slot vmemAddr)
    (haligned : vmemAddr % 4096 = 0) (hlt : vmemAddr < 2 ^ 32) :
    userVideoFrame mem slot = vmemAddr := by
  obtain ⟨junk, htable⟩ := hspace.table
  have hentry := htable 0 (by decide)
  rw [Nat.add_zero] at hentry
  rw [userVideoFrame, hentry, PageEntry.ofVal_val, userTableEntry,
    if_pos rfl, mappedEntry_frame (by omega)]
  omega

end Frames

/-- Every process has its address space, and the current one's is in use. -/
structure Mapped (layout : Layout) (c : Core) : Prop where
  spaces : ∀ slot < maxProcesses, (c.table slot).inUse = true →
    (c.table slot).processPdPtr = getProcessPd slot ∧
    ∃ vmemAddr, vmemAddr % 4096 = 0 ∧ vmemAddr < 2 ^ 32 ∧
      AddressSpace layout c.paging slot vmemAddr
  cr3 : c.cr3 = getProcessPd c.current

/-- The frame the current process sees is the buffer of its terminal. -/
def Core.VideoMapped (layout : Layout) (c : Core) : Prop :=
  userVideoFrame c.paging c.current =
    c.outputBuffer layout (c.table c.current).terminalNum

section Steps

variable {layout : Layout} {c : Core} {threads : ProcessThreads}

theorem contextSwitch_fields (last next esp ebp : Nat) :
    (∀ slot, ((c.contextSwitch layout last next esp ebp).table slot).inUse =
        (c.table slot).inUse ∧
      ((c.contextSwitch layout last next esp ebp).table slot).processPdPtr =
        (c.table slot).processPdPtr ∧
      ((c.contextSwitch layout last next esp ebp).table slot).terminalNum =
        (c.table slot).terminalNum ∧
      ((c.contextSwitch layout last next esp ebp).table slot).status =
        (c.table slot).status) ∧
      (c.contextSwitch layout last next esp ebp).paging =
        setProcessVmemPage c.paging (c.table next).slotNum
          (c.outputBuffer layout (c.table next).terminalNum) ∧
      (c.contextSwitch layout last next esp ebp).cr3 =
        (c.table next).processPdPtr ∧
      (c.contextSwitch layout last next esp ebp).activeTerminal =
        c.activeTerminal := by
  have hresume (c : Core) : (c.resume next).paging = c.paging ∧
      (c.resume next).cr3 = c.cr3 ∧
      (c.resume next).activeTerminal = c.activeTerminal := by
    unfold Core.resume
    split <;> exact ⟨rfl, rfl, rfl⟩
  refine ⟨?_, hresume _⟩
  intro slot
  rw [Core.contextSwitch, resume_table]
  exact ⟨update_keeps ProcessEntry.inUse c.table (by rfl) slot,
    update_keeps ProcessEntry.processPdPtr c.table (by rfl) slot,
    update_keeps ProcessEntry.terminalNum c.table (by rfl) slot,
    update_keeps ProcessEntry.status c.table (by rfl) slot⟩

/-- A context switch sets the entry of the process it switches to. -/
theorem mapped_switch (hrep : Represents c.table c.current threads)
    (hmapped : Mapped layout c) {next esp ebp : Nat}
    (hstack : slotOfEsp esp = c.current) (hnext : next < maxProcesses)
    (hinUse : (c.table next).inUse = true)
    (hstatus : (c.table next).status = .running) :
    Mapped layout (c.contextSwitch layout c.current next esp ebp) ∧
      (c.contextSwitch layout c.current next esp ebp).VideoMapped layout := by
  obtain ⟨terminal, htop⟩ := hrep.top_of_running hnext hinUse hstatus
  obtain ⟨parent, hprocess⟩ := (hrep.holds terminal).top_process
  rw [htop] at hprocess
  have hterminal : (c.table next).terminalNum < numTerminals :=
    hprocess.terminalNum ▸ terminal.isLt
  obtain ⟨haligned, hlt⟩ := @outputBuffer_legal layout c _ hterminal
  have hnew := @contextSwitch_current layout c threads hrep next esp ebp hstack
    _ htop
  obtain ⟨hentries, hpaging, hcr3, hactive⟩ :=
    @contextSwitch_fields layout c c.current next esp ebp
  rw [hrep.slotNum next hnext] at hpaging
  obtain ⟨hpd, vmemAddr, -, -, hspace⟩ := hmapped.spaces next hnext hinUse
  have hspaceNext := @setProcessVmemPage_addressSpace layout _ _ _
    (c.outputBuffer layout (c.table next).terminalNum) hspace
  rw [← hpaging] at hspaceNext
  constructor
  · constructor
    · intro slot hslot hslotUse
      obtain ⟨hslotInUse, hslotPd, -⟩ := hentries slot
      rw [hslotInUse] at hslotUse
      obtain ⟨hpdSlot, other, hotherAligned, hotherLt, hotherSpace⟩ :=
        hmapped.spaces slot hslot hslotUse
      rw [hslotPd]
      by_cases hsame : slot = next
      · subst hsame
        exact ⟨hpdSlot, _, haligned, hlt, hspaceNext⟩
      · refine ⟨hpdSlot, other, hotherAligned, hotherLt, ?_⟩
        rw [hpaging]
        exact setProcessVmemPage_other (Ne.symm hsame) _ hotherSpace
    · rw [hcr3, hnew, hpd]
  · rw [Core.VideoMapped, hnew, userVideoFrame_eq hspaceNext haligned hlt,
      (hentries next).2.2.1, Core.outputBuffer, Core.outputBuffer, hactive]

/-- A successful `execute` sets the entry of the child. -/
theorem mapped_execute (hrep : Represents c.table c.current threads)
    (hmapped : Mapped layout c) {child esp ebp : Nat} (junk : Junk)
    (hchild : child < maxProcesses) (hfree : (c.table child).inUse = false) :
    Mapped layout (c.execute layout c.current child esp ebp junk) ∧
      (c.execute layout c.current child esp ebp junk).VideoMapped layout := by
  have hne := hrep.fresh_ne_current (hrep.fresh_of_free hfree)
  obtain ⟨hlt, hinUse, hterminal⟩ := hrep.current_process
  obtain ⟨haligned, hvmemLt⟩ := @outputBuffer_legal layout c _ hterminal
  obtain ⟨hparentEntry, hchildEntry, hothers⟩ :=
    @execute_table layout c c.current child hne esp ebp junk
  have hnew : (c.execute layout c.current child esp ebp junk).current =
      child := slotOfEsp_base hchild
  have hspace : AddressSpace layout
      (c.execute layout c.current child esp ebp junk).paging child
      (c.outputBuffer layout (c.table c.current).terminalNum) :=
    setProcessVmemPage_addressSpace _ (setupProcessPaging_addressSpace junk _)
  constructor
  · constructor
    · intro slot hslot hslotUse
      by_cases hsame : slot = child
      · subst hsame
        rw [hchildEntry]
        exact ⟨rfl, _, haligned, hvmemLt, hspace⟩
      · have hbefore : (c.table slot).inUse = true ∧
            ((c.execute layout c.current child esp ebp junk).table
              slot).processPdPtr = (c.table slot).processPdPtr := by
          by_cases hparent : slot = c.current
          · subst hparent
            rw [hparentEntry]
            exact ⟨hinUse, rfl⟩
          · rw [hothers slot hparent hsame] at hslotUse ⊢
            exact ⟨hslotUse, rfl⟩
        obtain ⟨hpd, other, hotherAligned, hotherLt, hotherSpace⟩ :=
          hmapped.spaces slot hslot hbefore.1
        refine ⟨hbefore.2.trans hpd, other, hotherAligned, hotherLt, ?_⟩
        exact setProcessVmemPage_other (Ne.symm hsame) _
          (setupProcessPaging_other (Ne.symm hsame) junk _ _ hotherSpace)
    · rw [hnew]
      rfl
  · rw [Core.VideoMapped, hnew, userVideoFrame_eq hspace haligned hvmemLt,
      hchildEntry]
    rfl

/-- The parent of the current process waits for it. -/
theorem parent_blocked (hrep : Represents c.table c.current threads)
    {parent : Nat} (hparent : (c.table c.current).parent = some parent) :
    parent < maxProcesses ∧ (c.table parent).inUse = true ∧
      (c.table parent).status = .blocked ∧
      (c.table parent).terminalNum < numTerminals := by
  obtain ⟨terminal, hcurrent⟩ := hrep.current_top
  obtain ⟨caller, hchain, rfl, -⟩ := chain_of_parent hrep hparent hcurrent
  have hholds := hrep.holds terminal
  rw [hchain] at hholds
  obtain ⟨-, -, -, -, hcaller⟩ := hholds
  obtain ⟨hlt, above, hentry⟩ := hcaller.process caller.top_mem_frames
  have hprocess : (c.table caller.top).IsProcess terminal above .blocked :=
    hentry.elim And.left id
  exact ⟨hlt, hprocess.inUse, hprocess.status,
    hprocess.terminalNum ▸ terminal.isLt⟩

/-- A return to the parent loads its page directory and leaves its entry as it
is. -/
theorem mapped_halt (hrep : Represents c.table c.current threads)
    (hmapped : Mapped layout c) {parent : Nat}
    (hparent : (c.table c.current).parent = some parent) :
    Mapped layout ((c.release c.current).returnTo c.current parent) ∧
      (((c.release c.current).returnTo c.current parent).VideoMapped layout ↔
        userVideoFrame c.paging parent =
          c.outputBuffer layout (c.table parent).terminalNum) := by
  obtain ⟨terminal, hcurrent⟩ := hrep.current_top
  obtain ⟨caller, hchain, htop, hstack⟩ :=
    chain_of_parent hrep hparent hcurrent
  have hne : c.current ≠ parent := htop ▸ threads.callee_ne_caller hchain
  obtain ⟨hchildEntry, hparentEntry, hothers, hesp⟩ := halt_table (c := c) hne
  have hnew : ((c.release c.current).returnTo c.current parent).current =
      parent := by
    rw [Core.current, hesp]
    exact hstack
  have hcr3 : ((c.release c.current).returnTo c.current parent).cr3 =
      (((c.release c.current).returnTo c.current parent).table
        parent).processPdPtr := rfl
  constructor
  · have hspaces : ∀ slot < maxProcesses,
        (((c.release c.current).returnTo c.current parent).table
          slot).inUse = true →
        (((c.release c.current).returnTo c.current parent).table
          slot).processPdPtr = getProcessPd slot ∧
        ∃ vmemAddr, vmemAddr % 4096 = 0 ∧ vmemAddr < 2 ^ 32 ∧
          AddressSpace layout c.paging slot vmemAddr := by
      intro slot hslot hinUse
      by_cases hchild : slot = c.current
      · rw [hchild, hchildEntry] at hinUse
        exact absurd hinUse (by simp)
      · by_cases hsame : slot = parent
        · subst hsame
          rw [hparentEntry] at hinUse ⊢
          exact hmapped.spaces slot hslot hinUse
        · rw [hothers slot hchild hsame] at hinUse ⊢
          exact hmapped.spaces slot hslot hinUse
    refine ⟨hspaces, ?_⟩
    obtain ⟨hparentLt, hinUse, -⟩ := parent_blocked hrep hparent
    rw [hcr3, hnew]
    refine (hspaces parent hparentLt ?_).1
    rw [hparentEntry]
    exact hinUse
  · rw [Core.VideoMapped, hnew, hparentEntry]
    exact Iff.rfl

theorem mapped_restart (hrep : Represents c.table c.current threads)
    (hmapped : Mapped layout c)
    (hparent : (c.table c.current).parent = none) :
    Mapped layout ((c.release c.current).restart c.current) ∧
      (((c.release c.current).restart c.current).VideoMapped layout ↔
        c.VideoMapped layout) := by
  obtain ⟨htable, hsame⟩ := restart_table hrep hparent
  constructor
  · constructor
    · rw [htable]
      exact hmapped.spaces
    · rw [hsame]
      exact hmapped.cr3
  · rw [Core.VideoMapped, htable, hsame]
    exact Iff.rfl

/-- A new active terminal changes what the terminals it takes and gives the
screen should see, and no entry. -/
theorem mapped_activate (hgood : c.VideoMapped layout) (newTerminal : Nat) :
    Core.VideoMapped layout { c with activeTerminal := newTerminal } ↔
      newTerminal ≠ c.activeTerminal →
        (c.table c.current).terminalNum ≠ c.activeTerminal ∧
          (c.table c.current).terminalNum ≠ newTerminal := by
  have hbuffer := @outputBufferOf_ne_video layout
  change userVideoFrame c.paging c.current =
    (if (c.table c.current).terminalNum = newTerminal then videoPhysAddr
      else layout.outputBufferOf (c.table c.current).terminalNum) ↔ _
  rw [Core.VideoMapped, Core.outputBuffer] at hgood
  rw [hgood]
  by_cases hsame : newTerminal = c.activeTerminal
  · simp [hsame]
  · by_cases hold : (c.table c.current).terminalNum = c.activeTerminal
    · simp [hold, hsame, Ne.symm hsame, Ne.symm (hbuffer _)]
    · by_cases hnew : (c.table c.current).terminalNum = newTerminal
      · simp [hnew, hsame, hbuffer]
      · simp [hold, hnew]

end Steps

/-- The entry of the process maps the buffer its terminal had when it last
ran. -/
def MapsLastSeen (layout : Layout)
    (earlier : List (Transition Kernel KernelEvent Outcome)) (c : Core)
    (slot : Nat) : Prop :=
  ∃ step, lastRan earlier slot = some step ∧
    AddressSpace layout c.paging slot
      (step.before.core.outputBuffer layout (c.table slot).terminalNum)

/-- Nobody touches the entries of the processes that wait for a child. -/
def WaitingEntries (layout : Layout)
    (earlier : List (Transition Kernel KernelEvent Outcome)) (c : Core) :
    Prop :=
  ∀ slot < maxProcesses, (c.table slot).inUse = true →
    (c.table slot).status = .blocked → MapsLastSeen layout earlier c slot

section History

variable {layout : Layout} {k : Kernel} {after : Core}
  {threads : ProcessThreads} {event : KernelEvent} {label : ProcessLabel}
  {earlier : List (Transition Kernel KernelEvent Outcome)}
  {last : Transition Kernel KernelEvent Outcome}

theorem MapsLastSeen.concat {c : Core} {slot : Nat}
    (hseen : MapsLastSeen layout earlier c slot)
    (hother : last.before.current ≠ slot)
    (hterminal : (after.table slot).terminalNum = (c.table slot).terminalNum)
    (hspace : ∀ vmemAddr, AddressSpace layout c.paging slot vmemAddr →
      AddressSpace layout after.paging slot vmemAddr) :
    MapsLastSeen layout (earlier ++ [last]) after slot := by
  obtain ⟨step, hlast, hmaps⟩ := hseen
  refine ⟨step, ?_, ?_⟩
  · rw [lastRan_concat, if_neg hother]
    exact hlast
  · rw [hterminal]
    exact hspace _ hmaps

/-- The current process sees what its entry maps. -/
theorem VideoMapped.addressSpace (hmapped : Mapped layout k.core)
    (hgood : VideoMapped layout k) (hcurrent : k.current < maxProcesses)
    (hinUse : (k.core.table k.current).inUse = true) :
    AddressSpace layout k.paging k.current
      (k.core.outputBuffer layout (k.core.table k.current).terminalNum) := by
  obtain ⟨-, vmemAddr, haligned, hlt, hspace⟩ :=
    hmapped.spaces k.current hcurrent hinUse
  have hframe : vmemAddr =
      k.core.outputBuffer layout (k.core.table k.current).terminalNum :=
    (userVideoFrame_eq hspace haligned hlt).symm.trans hgood
  rw [← hframe]
  exact hspace

section Waiting

variable (hrep : Represents k.core.table k.current threads)
  (hwaiting : WaitingEntries layout earlier k.core) (hlast : last.before = k)
include hrep hwaiting hlast

/-- A process that waited before and goes on waiting was not the current one. -/
theorem waiting_kept {slot : Nat} (hslot : slot < maxProcesses)
    (hinUse : (k.core.table slot).inUse = true)
    (hblocked : (k.core.table slot).status = .blocked)
    (hterminal : (after.table slot).terminalNum =
      (k.core.table slot).terminalNum)
    (hspace : ∀ vmemAddr, AddressSpace layout k.core.paging slot vmemAddr →
      AddressSpace layout after.paging slot vmemAddr) :
    MapsLastSeen layout (earlier ++ [last]) after slot := by
  obtain ⟨terminal, hcurrent⟩ := hrep.current_top
  obtain ⟨parent, hprocess⟩ := (hrep.holds terminal).top_process
  rw [hcurrent] at hprocess
  refine (hwaiting slot hslot hinUse hblocked).concat ?_ hterminal hspace
  rintro rfl
  rw [hlast, hprocess.status] at hblocked
  exact Status.noConfusion hblocked

/-- The process switched to does not wait. -/
theorem waiting_switch {target esp ebp : Nat} (htarget : target < maxProcesses)
    (hstatus : (k.core.table target).status = .running) :
    WaitingEntries layout (earlier ++ [last])
      (k.core.contextSwitch layout k.core.current target esp ebp) := by
  intro slot hslot hinUse hblocked
  obtain ⟨hentries, hpaging, -⟩ :=
    @contextSwitch_fields layout k.core k.core.current target esp ebp
  obtain ⟨hinUse', -, hterminal, hstatus'⟩ := hentries slot
  rw [hinUse'] at hinUse
  rw [hstatus'] at hblocked
  have hne : target ≠ slot := by
    rintro rfl
    rw [hstatus] at hblocked
    exact Status.noConfusion hblocked
  apply waiting_kept hrep hwaiting hlast hslot hinUse hblocked hterminal
  intro vmemAddr hspace
  rw [hpaging, hrep.slotNum target htarget]
  exact setProcessVmemPage_other hne _ hspace

/-- The process that starts a child waits from now on, with the entry it ran
with. -/
theorem waiting_execute (hmapped : Mapped layout k.core)
    (hgood : VideoMapped layout k) {child esp ebp : Nat} (junk : Junk)
    (hfree : (k.core.table child).inUse = false) :
    WaitingEntries layout (earlier ++ [last])
      (k.core.execute layout k.core.current child esp ebp junk) := by
  intro slot hslot hinUse hblocked
  have hne := hrep.fresh_ne_current (hrep.fresh_of_free hfree)
  obtain ⟨hlt, hcurrentUse, -⟩ := hrep.current_process
  obtain ⟨hparentEntry, hchildEntry, hothers⟩ :=
    @execute_table layout k.core k.core.current child hne esp ebp junk
  have hnotChild : child ≠ slot := by
    rintro rfl
    rw [hchildEntry] at hblocked
    exact Status.noConfusion hblocked
  have hspaces (vmemAddr : Nat)
      (hspace : AddressSpace layout k.core.paging slot vmemAddr) :
      AddressSpace layout
        (k.core.execute layout k.core.current child esp ebp junk).paging
        slot vmemAddr :=
    setProcessVmemPage_other hnotChild _
      (setupProcessPaging_other hnotChild junk _ _ hspace)
  by_cases hparent : slot = k.current
  · subst hparent
    refine ⟨last, ?_, ?_⟩
    · rw [lastRan_concat, hlast, if_pos rfl]
    · rw [hlast]
      have hterminal := congrArg ProcessEntry.terminalNum hparentEntry
      exact hterminal ▸
        hspaces _ (hgood.addressSpace hmapped hlt hcurrentUse)
  · have hentry := hothers slot hparent (Ne.symm hnotChild)
    rw [hentry] at hinUse hblocked
    exact waiting_kept hrep hwaiting hlast hslot hinUse hblocked
      (congrArg ProcessEntry.terminalNum hentry) hspaces

/-- Neither the process that ends nor its parent waits afterwards. -/
theorem waiting_halt {parent : Nat}
    (hparent : (k.core.table k.core.current).parent = some parent) :
    WaitingEntries layout (earlier ++ [last])
      ((k.core.release k.core.current).returnTo k.core.current parent) := by
  intro slot hslot hinUse hblocked
  obtain ⟨terminal, hcurrent⟩ := hrep.current_top
  obtain ⟨caller, hchain, htop, -⟩ :=
    @chain_of_parent k.core _ hrep _ hparent _ hcurrent
  have hne : k.core.current ≠ parent :=
    htop ▸ threads.callee_ne_caller hchain
  obtain ⟨hchildEntry, hparentEntry, hothers, -⟩ :=
    @halt_table k.core _ _ hne
  have hchild : slot ≠ k.core.current := by
    rintro rfl
    rw [hchildEntry] at hinUse
    exact Bool.false_ne_true hinUse
  have hsame : slot ≠ parent := by
    rintro rfl
    rw [hparentEntry] at hblocked
    exact Status.noConfusion hblocked
  have hentry := hothers slot hchild hsame
  rw [hentry] at hinUse hblocked
  exact waiting_kept hrep hwaiting hlast hslot hinUse hblocked
    (congrArg ProcessEntry.terminalNum hentry) fun _ => id

theorem waiting_step (hmapped : Mapped layout k.core)
    (hgood : VideoMapped layout k)
    (hstep : CoreStep layout k.core event label after) :
    WaitingEntries layout (earlier ++ [last]) after := by
  have hkept {after : Core} (htable : after.table = k.core.table)
      (hpaging : after.paging = k.core.paging) :
      WaitingEntries layout (earlier ++ [last]) after := by
    intro slot hslot hinUse hblocked
    rw [htable] at hinUse hblocked
    apply waiting_kept hrep hwaiting hlast hslot hinUse hblocked
    · rw [htable]
    · rw [hpaging]
      exact fun _ => id
  cases hstep with
  | idle => exact hkept rfl rfl
  | rejected => exact hkept rfl rfl
  | activate => exact hkept rfl rfl
  | switch _ target esp ebp _ _ htarget _ hstatus =>
      exact waiting_switch hrep hwaiting hlast htarget hstatus
  | execute _ child esp ebp junk _ hchild hfree =>
      exact waiting_execute hrep hwaiting hlast hmapped hgood junk hfree
  | halt _ parent _ hparent => exact waiting_halt hrep hwaiting hlast hparent
  | restart _ _ hparent =>
      exact hkept (@restart_table k.core _ hrep hparent).1 rfl

end Waiting

/-- The parent's entry is right for it exactly if its terminal is shown or not
as when it made its call. -/
theorem parentShown_iff (hrep : Represents k.core.table k.current threads)
    (hwaiting : WaitingEntries layout earlier k.core) {parent : Nat}
    (hparent : k.currentPcb.parent = some parent) :
    userVideoFrame k.core.paging parent =
        k.core.outputBuffer layout (k.core.table parent).terminalNum ↔
      ParentShownAsBefore earlier k := by
  obtain ⟨hlt, hinUse, hblocked, hterminal⟩ :=
    @parent_blocked k.core _ hrep _ hparent
  obtain ⟨step, hlast, hspace⟩ := hwaiting parent hlt hinUse hblocked
  obtain ⟨haligned, hbufferLt⟩ :=
    @outputBuffer_legal layout step.before.core _ hterminal
  rw [userVideoFrame_eq hspace haligned hbufferLt, outputBuffer_eq_iff]
  constructor
  · intro hsame other hother last hmem
    obtain rfl := Option.some.inj (hparent.symm.trans hother)
    obtain rfl := Option.some.inj (hlast.symm.trans hmem)
    exact hsame
  · intro hshown
    exact hshown parent hparent step hlast

end History

section Runs

variable {img : Image} {layout : Layout} {k next : Kernel}
  {threads : ProcessThreads} {event : KernelEvent} {label : ProcessLabel}
  {earlier : List (Transition Kernel KernelEvent Outcome)}

/-- One kernel entry, by what it does to the process table. -/
theorem mapped_step (hrep : Represents k.core.table k.current threads)
    (hmapped : Mapped layout k.core)
    (hstep : CoreStep layout k.core event label next.core) :
    Mapped layout next.core ∧ (VideoMapped layout k →
      WaitingEntries layout earlier k.core →
      (VideoMapped layout next ↔ KeepsVideoMapping earlier k event)) := by
  change _ ∧ (_ → _ → (next.core.VideoMapped layout ↔ _))
  generalize next.core = after at hstep
  cases hstep with
  | idle => exact ⟨hmapped, fun hgood _ => iff_of_true hgood trivial⟩
  | rejected => exact ⟨hmapped, fun hgood _ => iff_of_true hgood trivial⟩
  | activate newTerminal =>
      refine ⟨⟨hmapped.spaces, hmapped.cr3⟩, fun hgood _ => ?_⟩
      by_cases hlt : newTerminal < numTerminals
      · rw [if_pos hlt]
        have hiff := @mapped_activate layout k.core hgood newTerminal
        exact hiff.trans ⟨fun hkeeps _ => hkeeps, fun hkeeps => hkeeps hlt⟩
      · rw [if_neg hlt]
        exact iff_of_true hgood fun h => absurd h hlt
  | switch _ target esp ebp hevent hstack htarget hinUse hstatus =>
      obtain ⟨hmapped', hgood'⟩ :=
        mapped_switch hrep hmapped hstack htarget hinUse hstatus
      refine ⟨hmapped', fun _ _ => iff_of_true hgood' ?_⟩
      rcases hevent with rfl | rfl
      · trivial
      · trivial
  | execute _ child esp ebp junk hstack hchild hfree =>
      obtain ⟨hmapped', hgood'⟩ :=
        mapped_execute hrep hmapped junk hchild hfree
      exact ⟨hmapped', fun _ _ => iff_of_true hgood' trivial⟩
  | halt _ parent hevent hparent =>
      obtain ⟨hmapped', hiff⟩ := mapped_halt hrep hmapped hparent
      refine ⟨hmapped', fun _ hwaiting => hiff.trans ?_⟩
      rcases hevent with rfl | ⟨status, rfl⟩
      · exact parentShown_iff hrep hwaiting hparent
      · exact parentShown_iff hrep hwaiting hparent
  | restart _ hevent hparent =>
      obtain ⟨hmapped', hiff⟩ := mapped_restart hrep hmapped hparent
      refine ⟨hmapped', fun hgood _ => iff_of_true (hiff.mpr hgood) ?_⟩
      have hnone : ParentShownAsBefore earlier k := by
        intro other hother
        exact absurd (hparent.symm.trans hother) (by simp)
      rcases hevent with rfl | ⟨status, rfl⟩
      · exact hnone
      · exact hnone

theorem Booted.mapped (hboot : Booted img layout k) :
    Mapped layout k.core ∧ VideoMapped layout k := by
  obtain ⟨hstarting, hcurrent, hcr3⟩ := hboot.starting
  have hspaces : ∀ slot < numTerminals,
      (k.core.table slot).processPdPtr = getProcessPd slot ∧
      AddressSpace layout k.core.paging slot
        (k.core.outputBuffer layout slot) := hstarting.spaces
  constructor
  · constructor
    · intro slot hslot hinUse
      by_cases hroot : slot < numTerminals
      · obtain ⟨hpd, hspace⟩ := hspaces slot hroot
        obtain ⟨haligned, hlt⟩ := @outputBuffer_legal layout k.core _ hroot
        exact ⟨hpd, _, haligned, hlt, hspace⟩
      · have hge := Nat.le_of_not_lt hroot
        obtain ⟨hfree, -⟩ := hstarting.free slot hslot hge
        rw [hfree] at hinUse
        exact absurd hinUse (by simp)
    · rw [core_current, hcurrent]
      exact hcr3
  · have hterminal := (hstarting.started 0 (by decide)).terminalNum
    obtain ⟨haligned, hlt⟩ :=
      @outputBuffer_legal layout k.core 0 (by decide)
    change userVideoFrame k.core.paging k.current =
      k.core.outputBuffer layout (k.core.table k.current).terminalNum
    rw [hcurrent, userVideoFrame_eq (hspaces 0 (by decide)).2 haligned hlt]
    exact congrArg _ hterminal.symm

/-- What every run keeps, whether the entries are right or not. -/
def Tracked (layout : Layout) (k : Kernel) : Prop :=
  (∃ threads, Represents k.core.table k.current threads) ∧
    Mapped layout k.core

theorem tracked_step {answer : Outcome} (htracked : Tracked layout k)
    (hstep : kernelStep img layout k event = some (next, answer)) :
    Tracked layout next ∧ (VideoMapped layout k →
      WaitingEntries layout earlier k.core →
      (VideoMapped layout next ↔ KeepsVideoMapping earlier k event) ∧
        WaitingEntries layout (earlier ++ [⟨k, event, answer, next⟩])
          next.core) := by
  obtain ⟨⟨threads, hrep⟩, hmapped⟩ := htracked
  have hcore := kernelStep_coreStep hrep.slotNum hstep
  obtain ⟨threads', -, hrep'⟩ := represents_step hrep hcore
  obtain ⟨hmapped', hiff⟩ := mapped_step hrep hmapped hcore
  refine ⟨⟨⟨threads', hrep'⟩, hmapped'⟩, fun hgood hwaiting => ?_⟩
  exact ⟨hiff hgood hwaiting,
    waiting_step hrep hwaiting rfl hmapped hgood hcore⟩

theorem Booted.tracked (hboot : Booted img layout k) : Tracked layout k :=
  ⟨⟨rootThreads, hboot.represents⟩, hboot.mapped.1⟩

/-- No program waits for a child after boot. -/
theorem Booted.waiting (hboot : Booted img layout k) :
    WaitingEntries layout [] k.core := by
  obtain ⟨hstarting, -⟩ := hboot.starting
  intro slot hslot hinUse hblocked
  by_cases hroot : slot < numTerminals
  · rw [(hstarting.started ⟨slot, hroot⟩ hroot).status] at hblocked
    exact Status.noConfusion hblocked
  · rw [(hstarting.free slot hslot (Nat.le_of_not_lt hroot)).1] at hinUse
    exact absurd hinUse Bool.false_ne_true

theorem execution_tracked {start : Kernel}
    {transitions : List (Transition Kernel KernelEvent Outcome)}
    (hboot : Booted img layout start)
    (hexec : Execution (kernelStep img layout) start transitions k) :
    Tracked layout k := by
  induction hexec with
  | nil => exact hboot.tracked
  | concat _ hstep ih => exact (@tracked_step _ _ _ _ _ [] _ ih hstep).1

/-- The page at 132MB is the frame of entry 0. -/
theorem Tracked.walk (htracked : Tracked layout k) (access : Access)
    {offset : Nat} (hoffset : offset < fourKbAligned) :
    pageWalk k.paging k.cr3 access (getProcessVmemPage k.current + offset) =
      some (userVideoFrame k.paging k.current + offset) := by
  obtain ⟨⟨threads, hrep⟩, hmapped⟩ := htracked
  obtain ⟨hlt, hinUse, -⟩ := hrep.current_process
  obtain ⟨-, vmemAddr, haligned, hvmemLt, hspace⟩ :=
    hmapped.spaces k.current hlt hinUse
  change AddressSpace layout k.paging k.current vmemAddr at hspace
  have hcr3 : k.cr3 = getProcessPd k.current := hmapped.cr3
  simp only [fourKbAligned] at hoffset
  have hindex : (getProcessVmemPage k.current + offset) / 4194304 = 33 := by
    simp only [getProcessVmemPage, fourMbAligned]
    omega
  have hfirst : (getProcessVmemPage k.current + offset) / 4096 % 1024 = 0 ∧
      (getProcessVmemPage k.current + offset) % 4096 = offset := by
    simp only [getProcessVmemPage, fourMbAligned]
    omega
  rw [hcr3, walk_userTable hlt haligned hvmemLt hspace hindex, if_pos hfirst.1,
    hfirst.2, userVideoFrame_eq hspace haligned hvmemLt]

theorem VideoMapped.screen_iff (hgood : VideoMapped layout k) :
    userVideoFrame k.paging k.current = videoPhysAddr ↔
      k.currentPcb.terminalNum = k.tty.activeTerminal := by
  rw [hgood, getTerminalOutputBuffer]
  split
  · simp [*]
  · simp [*, outputBufferOf_ne_video]

end Runs

/-- The terminals change hands while a program of a third one runs, and the
parent gets its call back before the terminals change. -/
def quietSwitch : List KernelEvent :=
  [.execute [115] (sampleEsp 0) 0 Junk.zero, .halt 0,
    .timer 1 (sampleEsp 0) 0, .switchTerminal 2, .timer 0 (sampleEsp 1) 0]

/-- The terminals change hands while the first of them runs a nested program,
which the timer switches to once more before it returns. -/
def staleParent : List KernelEvent :=
  [.execute [115] (sampleEsp 0) 0 Junk.zero, .timer 1 (sampleEsp 3) 0,
    .switchTerminal 2, .timer 3 (sampleEsp 1) 0, .halt 0]

/-- Whether a run from the sample ends with the program of terminal 0 in the
background and its entry on the screen. -/
theorem drawsOnScreen_of_trace {events : List KernelEvent} {active : Nat}
    (hactive : active ≠ 0)
    (hrun : (trace (kernelStep shellImage sampleLayout) sampleKernel
      events).map (fun result => (result.2.current,
        result.2.currentPcb.terminalNum, result.2.tty.activeTerminal,
        userVideoFrame result.2.paging result.2.current)) =
      some (0, 0, active, videoPhysAddr)) :
    ∃ transitions final,
      Execution (kernelStep shellImage sampleLayout) sampleKernel transitions
          final ∧
        transitions.map Transition.event = events ∧
        final.current = 0 ∧ final.currentPcb.terminalNum = 0 ∧
        final.tty.activeTerminal = active ∧
        userVideoFrame final.paging final.current = videoPhysAddr ∧
        ¬ VideoMapped sampleLayout final := by
  obtain ⟨⟨transitions, final⟩, htrace, heq⟩ := Option.map_eq_some_iff.mp hrun
  obtain ⟨hexec, hevents⟩ := trace_execution htrace
  simp only [Prod.mk.injEq] at heq
  obtain ⟨hcurrent, hterminal, hshown, hframe⟩ := heq
  refine ⟨transitions, final, hexec, hevents, hcurrent, hterminal, hshown,
    hframe, fun hgood => hactive ?_⟩
  rw [← hshown, ← hgood.screen_iff.mp hframe, hterminal]

end PsychOS
