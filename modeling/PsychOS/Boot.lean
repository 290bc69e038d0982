/-
The state the kernel leaves behind when it enters its first program
(`kernel_run_first_program`): one root program per terminal, each with its own
address space, and nothing else.  From there on every execution of the kernel
is a run of nested calls.
-/
import PsychOS.AddressSpaces
import PsychOS.ProcessChains

namespace PsychOS

/-- The table after the first `n` root programs are set up. -/
structure Starting (layout : Layout) (n : Nat) (c : Core) : Prop where
  slotNum : ∀ slot < maxProcesses, (c.table slot).slotNum = slot
  esp : ∀ slot, 0 < slot → slot < numTerminals → (c.table slot).esp = 0
  started : ∀ terminal : Fin numTerminals, terminal < n →
    (c.table terminal).IsProcess terminal none .running
  free : ∀ slot < maxProcesses, n ≤ slot →
    (c.table slot).inUse = false ∧ (c.table slot).status = .none
  spaces : ∀ slot < n, (c.table slot).processPdPtr = getProcessPd slot ∧
    AddressSpace layout c.paging slot (c.outputBuffer layout slot)

/-- A PCB behind the first loop. -/
def clearedPcb (i : Nat) (pcb : Pcb) : Pcb :=
  { pcb with inUse := false, slotNum := i, status := .none }

/-- The PCB of a root program behind the second loop. -/
def rootPcb (command : List UInt8) (pcb : Pcb) (i entrypoint pid : Nat) :
    Pcb :=
  openStdinAndStdout { parseCommand command pcb with
    entrypoint := entrypoint
    processPdPtr := getProcessPd pcb.slotNum
    parent := none
    child := none
    inUse := true
    pid := pid
    status := .running
    terminalNum := i }

/-- The saved stack pointers of the root programs are zero, but for the first,
which is entered at once.  The loop over the root programs does not write them;
`context_switch` goes by them to tell a program that has not run yet. -/
def Kernel.FreshRoots (memory : Kernel) : Prop :=
  ∀ slot, 0 < slot → slot < numTerminals → (memory.pcb slot).esp = 0

section Boot

variable {img : Image} {layout : Layout} {k next : Kernel}

/-- The first loop frees the PCBs it gets to and tells them their slot. -/
theorem clearPcbs_eq (k : Kernel) (n : Nat) :
    (List.range n).foldl clearPcb k = { k with
      pcb := fun slot =>
        if slot < n then clearedPcb slot (k.pcb slot) else k.pcb slot } := by
  induction n with
  | zero => rfl
  | succ n ih =>
      rw [List.range_succ, List.foldl_append, ih, List.foldl_cons,
        List.foldl_nil, clearPcb, Kernel.modify, Kernel.mk.injEq]
      refine ⟨?_, rfl, rfl, rfl, rfl, rfl, rfl, rfl⟩
      funext slot
      dsimp only
      by_cases hlast : slot = n
      · rw [hlast, Function.update_self, if_neg (Nat.lt_irrefl n),
          if_pos (Nat.lt_succ_self n)]
        rfl
      · have hiff : slot < n ↔ slot < n + 1 := by omega
        rw [Function.update_of_ne hlast]
        simp only [hiff]

theorem starting_zero (hesp : k.FreshRoots) (tty : Tty) :
    Starting layout 0 { (List.range maxProcesses).foldl clearPcb k with
      tty := tty }.core := by
  have htable : ∀ slot < maxProcesses,
      ((List.range maxProcesses).foldl clearPcb k).core.table slot =
        (clearedPcb slot (k.pcb slot)).entry := by
    intro slot hslot
    rw [clearPcbs_eq]
    exact congrArg Pcb.entry (if_pos hslot)
  refine ⟨?_, ?_, ?_, ?_, ?_⟩
  · intro slot hslot
    exact congrArg ProcessEntry.slotNum (htable slot hslot)
  · intro slot hpos hroot
    have hslot : slot < maxProcesses := Nat.lt_trans hroot (by decide)
    exact (congrArg ProcessEntry.esp (htable slot hslot)).trans
      (hesp slot hpos hroot)
  · intro terminal hnone
    exact absurd hnone (Nat.not_lt_zero _)
  · intro slot hslot _
    exact ⟨congrArg ProcessEntry.inUse (htable slot hslot),
      congrArg ProcessEntry.status (htable slot hslot)⟩
  · intro slot hnone
    exact absurd hnone (Nat.not_lt_zero slot)

/-- One turn of the second loop. -/
theorem startRoot_eq {command : List UInt8} {junk : Nat → Junk}
    (hfits : commandEnd command ≤ entrypointOffset) (k : Kernel) (i : Nat) :
    startRoot img layout command junk k i =
      let slotNum := (k.pcb i).slotNum
      let loaded := loadProgramIntoSlot img k.pages
        (parseCommand command (k.pcb i)).text slotNum
      if loaded.2 = 0 then none
      else some { k with
        pcb := Function.update k.pcb i
          (rootPcb command (k.pcb i) i loaded.2 k.nextPid)
        nextPid := (k.nextPid + 1) % 2 ^ 32
        pages := loaded.1
        paging := setupProcessPaging layout (junk i) k.paging
          (getProcessPageFromSlot slotNum) slotNum
          (getTerminalOutputBuffer layout k.tty i) } := by
  have hslotNum : (parseCommand command (k.pcb i)).slotNum =
      (k.pcb i).slotNum := by rw [parseCommand_text hfits]
  simp only [startRoot, Kernel.modify, Kernel.getNextPid,
    Function.update_self, Function.update_idem, hslotNum, rootPcb]

theorem startRoot_core {command : List UInt8} {junk : Nat → Junk} {i : Nat}
    (hfits : commandEnd command ≤ entrypointOffset)
    (hstart : startRoot img layout command junk k i = some next) :
    next.core = { k.core.modify i (fun entry => { entry with
        processPdPtr := getProcessPd (k.pcb i).slotNum
        parent := none
        inUse := true
        status := .running
        terminalNum := i }) with
      paging := setupProcessPaging layout (junk i) k.paging
        (getProcessPageFromSlot (k.pcb i).slotNum) (k.pcb i).slotNum
        (getTerminalOutputBuffer layout k.tty i) } := by
  rw [startRoot_eq hfits] at hstart
  obtain ⟨-, heq⟩ := Option.ite_none_left_eq_some.mp hstart
  rw [← Option.some.inj heq, ← core_modify k i
    (f := fun pcb => rootPcb command pcb i _ k.nextPid)]
  · rfl
  · rw [rootPcb, parseCommand_text hfits]
    rfl

theorem starting_succ {command : List UInt8} {junk : Nat → Junk} {n : Nat}
    (hfits : commandEnd command ≤ entrypointOffset)
    (hstarting : Starting layout n k.core) (hn : n < numTerminals)
    (hstart : startRoot img layout command junk k n = some next) :
    Starting layout (n + 1) next.core := by
  have hlt : n < maxProcesses := Nat.lt_trans hn (by decide)
  have hslotNum : (k.pcb n).slotNum = n := hstarting.slotNum n hlt
  have hcore := startRoot_core hfits hstart
  rw [hslotNum] at hcore
  rw [hcore]
  have hother {slot : Nat} (hne : slot ≠ n) {entry : ProcessEntry} :
      Function.update k.core.table n entry slot = k.core.table slot :=
    Function.update_of_ne hne ..
  refine ⟨?_, ?_, ?_, ?_, ?_⟩
  · intro slot hslot
    exact (update_keeps ProcessEntry.slotNum k.core.table (by rfl) slot).trans
      (hstarting.slotNum slot hslot)
  · intro slot hpos hroot
    exact (update_keeps ProcessEntry.esp k.core.table (by rfl) slot).trans
      (hstarting.esp slot hpos hroot)
  · intro terminal hterminal
    by_cases hlast : (terminal : Nat) = n
    · simp only [Core.modify, hlast, Function.update_self]
      exact ⟨rfl, hlast.symm, rfl, rfl⟩
    · simp only [Core.modify, hother hlast]
      exact hstarting.started terminal (by omega)
  · intro slot hslot hge
    simp only [Core.modify, hother (show slot ≠ n by omega)]
    exact hstarting.free slot hslot (by omega)
  · intro slot hslot
    by_cases hlast : slot = n
    · simp only [Core.modify, hlast, Function.update_self, true_and]
      exact setupProcessPaging_addressSpace (junk n) _
    · obtain ⟨hpd, hspace⟩ := hstarting.spaces slot (by omega)
      simp only [Core.modify, hother hlast]
      exact ⟨hpd, setupProcessPaging_other (Ne.symm hlast) (junk n) _ _ hspace⟩

theorem starting_loop {command : List UInt8} {junk : Nat → Junk} {n : Nat}
    (hfits : commandEnd command ≤ entrypointOffset)
    (hclear : Starting layout 0 k.core) (hn : n ≤ numTerminals)
    (hloop : (List.range n).foldlM (startRoot img layout command junk) k =
      some next) : Starting layout n next.core := by
  induction n generalizing next with
  | zero =>
      obtain rfl : k = next := Option.some.inj hloop
      exact hclear
  | succ n ih =>
      rw [List.range_succ, List.foldlM_append] at hloop
      obtain ⟨middle, hmiddle, hlast⟩ := Option.bind_eq_some_iff.mp hloop
      have hstart : startRoot img layout command junk middle n = some next := by
        simpa using hlast
      exact starting_succ hfits (ih (by omega) hmiddle) (by omega) hstart

end Boot

/-- The states in which the first program is entered, after a boot over memory
whose saved stack pointers are zero where they count. -/
def Booted (img : Image) (layout : Layout) (k : Kernel) : Prop :=
  ∃ (command : List UInt8) (junk : Nat → Junk) (memory : Kernel),
    commandEnd command ≤ entrypointOffset ∧
    memory.FreshRoots ∧
    kernelRunFirstProgram img layout command junk memory = some k

section Booted

variable {img : Image} {layout : Layout} {k : Kernel}

theorem Booted.starting (hboot : Booted img layout k) :
    Starting layout numTerminals k.core ∧ k.current = 0 ∧
      k.cr3 = getProcessPd 0 := by
  obtain ⟨command, junk, memory, hfits, hesp, hrun⟩ := hboot
  obtain ⟨last, hloop, heq⟩ := Option.map_eq_some_iff.mp hrun
  have hstarting := starting_loop hfits (starting_zero hesp _) (Nat.le_refl _) hloop
  have hslotNum : (last.pcb 0).slotNum = 0 := hstarting.slotNum 0 (by decide)
  rw [← heq]
  refine ⟨⟨hstarting.slotNum, hstarting.esp, hstarting.started,
    hstarting.free, hstarting.spaces⟩, ?_, ?_⟩
  · change slotOfEsp (getKernelStackBaseFromSlot (last.pcb 0).slotNum) = 0
    rw [hslotNum]
    exact slotOfEsp_base (by decide)
  · exact (hstarting.spaces 0 (by decide)).1

theorem Booted.represents (hboot : Booted img layout k) :
    Represents k.core.table k.current rootThreads := by
  obtain ⟨hstarting, hcurrent, -⟩ := hboot.starting
  refine ⟨hstarting.slotNum, ?_, ?_, ⟨0, hcurrent.symm⟩, ?_⟩
  · intro slot hslot hfresh
    refine hstarting.free slot hslot (Nat.le_of_not_lt fun hlt => ?_)
    exact hfresh ⟨slot, hlt⟩ (List.mem_singleton_self slot)
  · intro terminal
    exact ⟨rfl, hstarting.started terminal terminal.isLt⟩
  · intro terminal hother
    have hne : (terminal : Nat) ≠ 0 := fun hzero =>
      hother (hzero.trans hcurrent.symm)
    exact Or.inl (hstarting.esp terminal (Nat.pos_of_ne_zero hne) terminal.isLt)

/-- Every execution of the kernel is a run of nested calls. -/
theorem execution_represents {transitions :
      List (Transition Kernel KernelEvent Outcome)} {start : Kernel}
    (hboot : Booted img layout start)
    (hexec : Execution (kernelStep img layout) start transitions k) :
    ∃ threads, CallRun rootThreads (transitions.map callLabel) threads ∧
      Represents k.core.table k.current threads := by
  induction hexec with
  | nil => exact ⟨rootThreads, .nil, hboot.represents⟩
  | concat _ hstep ih =>
      obtain ⟨threads, hrun, hrep⟩ := ih
      obtain ⟨after, hcall, hafter⟩ :=
        represents_step hrep (kernelStep_coreStep hrep.slotNum hstep)
      rw [List.map_append]
      exact ⟨after, hrun.concat hcall, hafter⟩

end Booted

/-- An image with one program, whose name is a single letter. -/
def shellImage : Image where
  numDirectoryEntries := 1
  numInodes := 1
  numDataBlocks := 1
  directoryEntries := fun _ => ⟨cString [115], 2, 0, fun _ => 0⟩
  fileLength := fun _ => 28
  dataBlocks := fun _ _ => 0
  data := fun _ => cString (elfMagicHeader ++ List.replicate 22 0 ++ [4, 8])

/-- Memory before anything runs. -/
def Kernel.zeroed : Kernel where
  pcb := fun _ => Pcb.zeroed
  nextPid := 0
  esp := 0
  esp0 := 0
  cr3 := 0
  paging := fun _ => 0
  pages := fun _ => 0
  tty := Tty.zeroed

/-- The kernel as it enters the first of three copies of the program. -/
def sampleKernel : Kernel :=
  (kernelRunFirstProgram shellImage sampleLayout [115] (fun _ => Junk.zero)
    Kernel.zeroed).getD Kernel.zeroed

theorem sampleKernel_eq : kernelRunFirstProgram shellImage sampleLayout [115]
    (fun _ => Junk.zero) Kernel.zeroed = some sampleKernel := by
  have hsome : (kernelRunFirstProgram shellImage sampleLayout [115]
      (fun _ => Junk.zero) Kernel.zeroed).isSome := by decide +kernel
  obtain ⟨k, hk⟩ := Option.isSome_iff_exists.mp hsome
  rw [sampleKernel, hk]
  rfl

theorem sampleKernel_booted :
    Booted shellImage sampleLayout sampleKernel :=
  ⟨[115], fun _ => Junk.zero, Kernel.zeroed, by decide, fun _ _ _ => rfl,
    sampleKernel_eq⟩

/-- A stack pointer on the kernel stack of the slot. -/
def sampleEsp (slot : Nat) : Nat := getKernelStackBaseFromSlot slot - 64

/-- A command whose arguments run on behind their field, through `entrypoint`
and with the last byte into `slot_num`. -/
def overrunCommand (name slotNum : UInt8) : List UInt8 :=
  [name, 32] ++ List.replicate 132 97 ++ [slotNum]

end PsychOS
