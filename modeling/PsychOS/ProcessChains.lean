/-
The process table as threads of nested calls: every terminal has one chain of
processes, the last of them runs and the others wait for the one they started.
Every kernel entry is a step of these threads.
-/
import PsychOS.ProcessTable

namespace PsychOS

abbrev ProcessChain := CallChain Nat (Nat × Nat)
abbrev ProcessThreads := Threads (Fin numTerminals) Nat (Nat × Nat)

/-- The entry of a process of the terminal. -/
structure ProcessEntry.IsProcess (entry : ProcessEntry)
    (terminal : Fin numTerminals) (parent : Option Nat) (status : Status) :
    Prop where
  inUse : entry.inUse = true
  terminalNum : entry.terminalNum = terminal
  parent : entry.parent = parent
  status : entry.status = status

/-- The table holds the chain.  The root of a terminal is in the slot of the
same number, all processes but the last are blocked, and a caller's registers
are the ones its `execute` saved, on its own stack. -/
def Holds (table : Nat → ProcessEntry) (terminal : Fin numTerminals) :
    ProcessChain → Status → Prop
  | .root slot, status =>
      slot = terminal ∧ (table slot).IsProcess terminal none status
  | .call slot saved caller, status =>
      slot < maxProcesses ∧
      (table slot).IsProcess terminal (some caller.top) status ∧
      ((table caller.top).esp, (table caller.top).ebp) = saved ∧
      slotOfEsp saved.1 = caller.top ∧ Holds table terminal caller .blocked

section Holds

variable {table next : Nat → ProcessEntry} {terminal : Fin numTerminals}
  {chain : ProcessChain} {status : Status}

theorem Holds.congr (hholds : Holds table terminal chain status)
    (hsame : ∀ slot ∈ chain.frames, next slot = table slot) :
    Holds next terminal chain status := by
  induction chain generalizing status with
  | root slot =>
      rw [Holds, hsame slot (List.mem_singleton_self slot)]
      exact hholds
  | call slot saved caller ih =>
      obtain ⟨hlt, hprocess, hsaved, hstack, hcaller⟩ := hholds
      have hrest : ∀ a ∈ caller.frames, next a = table a := fun a ha =>
        hsame a (List.mem_cons_of_mem slot ha)
      rw [Holds, hsame slot List.mem_cons_self,
        hrest caller.top caller.top_mem_frames]
      exact ⟨hlt, hprocess, hsaved, hstack, ih hcaller hrest⟩

theorem Holds.top_process (hholds : Holds table terminal chain status) :
    ∃ parent, (table chain.top).IsProcess terminal parent status := by
  cases chain with
  | root slot => exact ⟨none, hholds.2⟩
  | call slot saved caller => exact ⟨_, hholds.2.1⟩

/-- The process at the end may change its status and its registers. -/
theorem Holds.retop {changed : Status}
    (hholds : Holds table terminal chain status)
    (hnodup : chain.frames.Nodup)
    (htop : ∀ parent, (table chain.top).IsProcess terminal parent status →
      (next chain.top).IsProcess terminal parent changed)
    (hrest : ∀ slot ∈ chain.frames, slot ≠ chain.top →
      next slot = table slot) : Holds next terminal chain changed := by
  cases chain with
  | root slot => exact ⟨hholds.1, htop none hholds.2⟩
  | call slot saved caller =>
      obtain ⟨hlt, hprocess, hsaved, hstack, hcaller⟩ := hholds
      obtain ⟨hfresh, -⟩ := List.nodup_cons.mp hnodup
      have hsame : ∀ a ∈ caller.frames, next a = table a := by
        intro a ha
        exact hrest a (List.mem_cons_of_mem slot ha)
          fun (heq : a = slot) => hfresh (heq ▸ ha)
      refine ⟨hlt, htop _ hprocess, ?_, hstack, hcaller.congr hsame⟩
      rw [hsame caller.top caller.top_mem_frames]
      exact hsaved

/-- The processes of a chain. -/
theorem Holds.process (hholds : Holds table terminal chain status)
    {slot : Nat} (hmem : slot ∈ chain.frames) :
    slot < maxProcesses ∧ ∃ parent,
      (table slot).IsProcess terminal parent status ∧ slot = chain.top ∨
      (table slot).IsProcess terminal parent .blocked := by
  induction chain generalizing status with
  | root root =>
      obtain rfl := List.mem_singleton.mp hmem
      have hlt := terminal.isLt
      obtain ⟨rfl, hprocess⟩ := hholds
      exact ⟨Nat.lt_trans hlt (by decide), none, Or.inl ⟨hprocess, rfl⟩⟩
  | call top saved caller ih =>
      obtain ⟨hlt, hprocess, -, -, hcaller⟩ := hholds
      rcases List.mem_cons.mp hmem with rfl | hmem
      · exact ⟨hlt, _, Or.inl ⟨hprocess, rfl⟩⟩
      · obtain ⟨hslot, parent, hcase⟩ := ih hcaller hmem
        exact ⟨hslot, parent, Or.inr (hcase.elim And.left id)⟩

end Holds

/-- The table and the process on the stack in use are what the threads say. -/
structure Represents (table : Nat → ProcessEntry) (current : Nat)
    (threads : ProcessThreads) : Prop where
  slotNum : ∀ slot < maxProcesses, (table slot).slotNum = slot
  free : ∀ slot < maxProcesses, threads.Fresh slot →
    (table slot).inUse = false ∧ (table slot).status = .none
  holds : ∀ terminal, Holds table terminal (threads.chain terminal) .running
  current_top : ∃ terminal, (threads.chain terminal).top = current
  resumable : ∀ terminal, (threads.chain terminal).top ≠ current →
    (table (threads.chain terminal).top).esp = 0 ∨
    slotOfEsp (table (threads.chain terminal).top).esp =
      (threads.chain terminal).top

theorem Represents.current_process {table : Nat → ProcessEntry}
    {current : Nat} {threads : ProcessThreads}
    (hrep : Represents table current threads) :
    current < maxProcesses ∧ (table current).inUse = true ∧
      (table current).terminalNum < numTerminals := by
  obtain ⟨terminal, hcurrent⟩ := hrep.current_top
  obtain ⟨parent, hprocess⟩ := (hrep.holds terminal).top_process
  obtain ⟨hlt, -⟩ := (hrep.holds terminal).process
    (threads.chain terminal).top_mem_frames
  rw [hcurrent] at hprocess hlt
  exact ⟨hlt, hprocess.inUse, hprocess.terminalNum ▸ terminal.isLt⟩

/-- The threads after boot: one root program per terminal. -/
def rootThreads : ProcessThreads where
  chain := fun terminal => .root terminal
  nodup := by simp [CallChain.frames]
  disjoint := by
    intro first second hne slot hfirst hsecond
    have hslot := List.mem_singleton.mp hfirst
    have hother := List.mem_singleton.mp hsecond
    exact hne (Fin.ext (hslot.symm.trans hother))

/-- The top of the stack of a slot is on the stack of that slot. -/
theorem slotOfEsp_base {slot : Nat} (hslot : slot < maxProcesses) :
    slotOfEsp (getKernelStackBaseFromSlot slot) = slot := by
  simp only [maxProcesses] at hslot
  simp only [slotOfEsp, slotOfPcb, getPcbFromEsp, getKernelStackBaseFromSlot,
    kernelPageEnd, kernelStackSize]
  omega

namespace Represents

variable {table next : Nat → ProcessEntry} {current : Nat}
  {threads : ProcessThreads} (hrep : Represents table current threads)

include hrep

/-- A process in use is in a chain, and runs exactly if it is at the end. -/
theorem of_inUse {slot : Nat} (hslot : slot < maxProcesses)
    (hinUse : (table slot).inUse = true) :
    ∃ terminal, slot ∈ (threads.chain terminal).frames := by
  by_contra hfresh
  have hfree := hrep.free slot hslot fun terminal hmem =>
    hfresh ⟨terminal, hmem⟩
  rw [hfree.1] at hinUse
  exact Bool.noConfusion hinUse

theorem fresh_of_free {slot : Nat} (hfree : (table slot).inUse = false) :
    threads.Fresh slot := by
  intro terminal hmem
  obtain ⟨-, parent, hcase⟩ := (hrep.holds terminal).process hmem
  have hinUse : (table slot).inUse = true :=
    hcase.elim (fun h => h.1.inUse) fun h => h.inUse
  rw [hfree] at hinUse
  exact Bool.noConfusion hinUse

theorem top_of_running {slot : Nat} (hslot : slot < maxProcesses)
    (hinUse : (table slot).inUse = true)
    (hstatus : (table slot).status = .running) :
    ∃ terminal, (threads.chain terminal).top = slot := by
  obtain ⟨terminal, hmem⟩ := hrep.of_inUse hslot hinUse
  obtain ⟨-, parent, ⟨-, htop⟩ | hblocked⟩ :=
    (hrep.holds terminal).process hmem
  · exact ⟨terminal, htop.symm⟩
  · have hstatus' := hblocked.status
    rw [hstatus] at hstatus'
    exact Status.noConfusion hstatus'

/-- The current process is not in the chains of the other terminals. -/
theorem ne_current {terminal other : Fin numTerminals}
    (hcurrent : (threads.chain terminal).top = current)
    (hother : other ≠ terminal) {slot : Nat}
    (hmem : slot ∈ (threads.chain other).frames) : slot ≠ current := by
  rintro rfl
  exact hother (threads.thread_unique hmem
    (hcurrent ▸ (threads.chain terminal).top_mem_frames))

theorem fresh_ne_current {slot : Nat} (hfresh : threads.Fresh slot) :
    slot ≠ current := by
  rintro rfl
  obtain ⟨terminal, hcurrent⟩ := hrep.current_top
  exact hfresh terminal (hcurrent ▸ (threads.chain terminal).top_mem_frames)

/-- A change of the current process's registers and status, and of nothing
else in the chains. -/
theorem holds_retop {changed : Status} {terminal : Fin numTerminals}
    (hcurrent : (threads.chain terminal).top = current)
    (htop : ∀ parent, (table current).IsProcess terminal parent .running →
      (next current).IsProcess terminal parent changed)
    (hrest : ∀ slot ∈ (threads.chain terminal).frames, slot ≠ current →
      next slot = table slot) :
    Holds next terminal (threads.chain terminal) changed := by
  subst hcurrent
  exact (hrep.holds terminal).retop (threads.nodup terminal) htop hrest

/-- The current process is switched out; its registers go to its PCB. -/
theorem save {esp ebp : Nat} (hstack : slotOfEsp esp = current)
    (target : Fin numTerminals) :
    Represents (Function.update table current
      { table current with esp := esp, ebp := ebp })
      (threads.chain target).top threads where
  slotNum slot hslot :=
    (update_keeps ProcessEntry.slotNum table (by rfl) slot).trans
      (hrep.slotNum slot hslot)
  free slot hslot hfresh := by
    rw [Function.update_of_ne (hrep.fresh_ne_current hfresh)]
    exact hrep.free slot hslot hfresh
  holds other := by
    obtain ⟨terminal, hcurrent⟩ := hrep.current_top
    by_cases hother : other = terminal
    · subst hother
      refine hrep.holds_retop hcurrent ?_ ?_
      · intro parent hprocess
        rw [Function.update_self]
        exact ⟨hprocess.inUse, hprocess.terminalNum, hprocess.parent,
          hprocess.status⟩
      · intro slot _ hne
        exact Function.update_of_ne hne ..
    · refine (hrep.holds other).congr fun slot hmem => ?_
      exact Function.update_of_ne (hrep.ne_current hcurrent hother hmem) ..
  current_top := ⟨target, rfl⟩
  resumable other hne := by
    by_cases hcurrent : (threads.chain other).top = current
    · rw [hcurrent, Function.update_self]
      exact Or.inr hstack
    · rw [Function.update_of_ne hcurrent]
      exact hrep.resumable other hcurrent

end Represents

section Steps

variable {layout : Layout} {c : Core} {threads : ProcessThreads}

theorem resume_table (c : Core) (next : Nat) :
    (c.resume next).table = c.table := by
  unfold Core.resume
  split <;> rfl

/-- After a context switch the stack in use is that of the process switched
to. -/
theorem contextSwitch_current (hrep : Represents c.table c.current threads)
    {next esp ebp : Nat} (hstack : slotOfEsp esp = c.current)
    {terminal : Fin numTerminals}
    (htop : (threads.chain terminal).top = next) :
    (c.contextSwitch layout c.current next esp ebp).current = next := by
  obtain ⟨hlt, -⟩ := (hrep.holds terminal).process
    (threads.chain terminal).top_mem_frames
  rw [htop] at hlt
  have hslotNum : (Function.update c.table c.current
      { c.table c.current with esp := esp, ebp := ebp } next).slotNum =
      next :=
    (update_keeps ProcessEntry.slotNum c.table (by rfl) next).trans
      (hrep.slotNum next hlt)
  unfold Core.contextSwitch Core.resume
  dsimp only [Core.modify]
  split
  · rw [Core.current, hslotNum, slotOfEsp_base hlt]
  · rename_i hesp
    rw [Core.current]
    by_cases hself : next = c.current
    · rw [hself, Function.update_self, hstack]
    · rw [Function.update_of_ne hself] at hesp ⊢
      have hresumable := hrep.resumable terminal (htop ▸ hself)
      rw [htop] at hresumable
      exact hresumable.resolve_left hesp

theorem represents_switch (hrep : Represents c.table c.current threads)
    {next esp ebp : Nat} (hstack : slotOfEsp esp = c.current)
    (hnext : next < maxProcesses) (hinUse : (c.table next).inUse = true)
    (hstatus : (c.table next).status = .running) :
    Represents (c.contextSwitch layout c.current next esp ebp).table
      (c.contextSwitch layout c.current next esp ebp).current threads := by
  obtain ⟨terminal, htop⟩ := hrep.top_of_running hnext hinUse hstatus
  rw [contextSwitch_current hrep hstack htop, ← htop]
  have hsave := @Represents.save _ _ _ hrep esp ebp hstack terminal
  rw [Core.contextSwitch, resume_table]
  exact hsave

theorem execute_table {parent child : Nat} (hne : child ≠ parent)
    (esp ebp : Nat) (junk : Junk) :
    (c.execute layout parent child esp ebp junk).table parent =
        { c.table parent with status := .blocked, esp := esp, ebp := ebp } ∧
      (c.execute layout parent child esp ebp junk).table child =
        { c.table child with
          processPdPtr := getProcessPd child
          parent := some parent
          inUse := true
          terminalNum := (c.table parent).terminalNum
          status := .running } ∧
      ∀ slot, slot ≠ parent → slot ≠ child →
        (c.execute layout parent child esp ebp junk).table slot =
          c.table slot := by
  refine ⟨?_, ?_, ?_⟩
  · simp only [Core.execute, Core.modify, Function.update_self,
      Function.update_of_ne hne.symm]
  · simp only [Core.execute, Core.modify, Function.update_self,
      Function.update_of_ne hne]
  · intro slot hparent hchild
    simp only [Core.execute, Core.modify, Function.update_of_ne hparent,
      Function.update_of_ne hchild]

/-- A successful `execute` puts the child on top of the chain of the current
process. -/
theorem represents_execute (hrep : Represents c.table c.current threads)
    {child esp ebp : Nat} (junk : Junk) (hstack : slotOfEsp esp = c.current)
    (hchild : child < maxProcesses) (hfresh : threads.Fresh child)
    {terminal : Fin numTerminals}
    (hcurrent : (threads.chain terminal).top = c.current) :
    Represents (c.execute layout c.current child esp ebp junk).table
      (c.execute layout c.current child esp ebp junk).current
      (threads.push terminal child (esp, ebp) hfresh) := by
  have hne := hrep.fresh_ne_current hfresh
  obtain ⟨hparentEntry, hchildEntry, hothers⟩ :=
    @execute_table layout c c.current child hne esp ebp junk
  have hnew : (c.execute layout c.current child esp ebp junk).current =
      child := slotOfEsp_base hchild
  obtain ⟨parent, hprocess⟩ := (hrep.holds terminal).top_process
  rw [hcurrent] at hprocess
  generalize (c.execute layout c.current child esp ebp junk).table = table at *
  rw [hnew]
  refine ⟨?_, ?_, ?_, ⟨terminal, by simp [CallChain.top]⟩, ?_⟩
  · intro slot hslot
    by_cases hparent : slot = c.current
    · rw [hparent, hparentEntry]
      exact hrep.slotNum _ (hparent ▸ hslot)
    · by_cases hsame : slot = child
      · rw [hsame, hchildEntry]
        exact hrep.slotNum child hchild
      · rw [hothers slot hparent hsame]
        exact hrep.slotNum slot hslot
  · intro slot hslot hstill
    obtain ⟨hsame, hfree⟩ := threads.fresh_of_push hstill
    rw [hothers slot (hrep.fresh_ne_current hfree) hsame]
    exact hrep.free slot hslot hfree
  · intro other
    by_cases hother : other = terminal
    · subst hother
      rw [Threads.push_chain_self, Holds, hcurrent, hparentEntry, hchildEntry]
      refine ⟨hchild, ⟨rfl, hprocess.terminalNum, rfl, rfl⟩, rfl, hstack, ?_⟩
      refine hrep.holds_retop hcurrent ?_ ?_
      · intro parent hbefore
        rw [hparentEntry]
        exact ⟨hbefore.inUse, hbefore.terminalNum, hbefore.parent, rfl⟩
      · intro slot hmem hparent
        exact hothers slot hparent fun heq => hfresh other (heq ▸ hmem)
    · rw [threads.push_chain_other hfresh hother]
      refine (hrep.holds other).congr fun slot hmem => ?_
      exact hothers slot (hrep.ne_current hcurrent hother hmem)
        fun heq => hfresh other (heq ▸ hmem)
  · intro other hnotTop
    by_cases hother : other = terminal
    · subst hother
      rw [Threads.push_chain_self] at hnotTop
      exact absurd rfl hnotTop
    · rw [threads.push_chain_other hfresh hother] at hnotTop ⊢
      have hmem := (threads.chain other).top_mem_frames
      have hnotCurrent := hrep.ne_current hcurrent hother hmem
      rw [hothers _ hnotCurrent hnotTop]
      exact hrep.resumable other hnotCurrent

theorem halt_table {child parent : Nat} (hne : child ≠ parent) :
    ((c.release child).returnTo child parent).table child =
        { c.table child with inUse := false, status := .none } ∧
      ((c.release child).returnTo child parent).table parent =
        { c.table parent with status := .running } ∧
      (∀ slot, slot ≠ child → slot ≠ parent →
        ((c.release child).returnTo child parent).table slot =
          c.table slot) ∧
      ((c.release child).returnTo child parent).esp =
        (c.table parent).esp := by
  refine ⟨?_, ?_, ?_, ?_⟩
  · simp only [Core.release, Core.returnTo, Core.modify, Function.update_self,
      Function.update_of_ne hne]
  · simp only [Core.release, Core.returnTo, Core.modify, Function.update_self,
      Function.update_of_ne hne.symm]
  · intro slot hchild hparent
    simp only [Core.release, Core.returnTo, Core.modify,
      Function.update_of_ne hchild, Function.update_of_ne hparent]
  · simp only [Core.release, Core.returnTo, Core.modify, Function.update_self,
      Function.update_of_ne hne.symm]

/-- The chain of a process with a parent. -/
theorem chain_of_parent (hrep : Represents c.table c.current threads)
    {parent : Nat} (hparent : (c.table c.current).parent = some parent)
    {terminal : Fin numTerminals}
    (hcurrent : (threads.chain terminal).top = c.current) :
    ∃ caller, threads.chain terminal = .call c.current
        ((c.table parent).esp, (c.table parent).ebp) caller ∧
      caller.top = parent ∧ slotOfEsp (c.table parent).esp = parent := by
  have hholds := hrep.holds terminal
  cases hchain : threads.chain terminal with
  | root slot =>
      rw [hchain] at hholds hcurrent
      have hnone := hholds.2.parent
      rw [show slot = c.current from hcurrent, hparent] at hnone
      exact absurd hnone (by simp)
  | call slot saved caller =>
      rw [hchain] at hholds hcurrent
      obtain ⟨-, hprocess, rfl, hstack, -⟩ := hholds
      have hslot : slot = c.current := hcurrent
      have hsome := hprocess.parent
      rw [hslot, hparent] at hsome
      obtain rfl : parent = caller.top := Option.some.inj hsome
      exact ⟨caller, by rw [hslot], rfl, hstack⟩

/-- A `halt` takes the current process off its chain. -/
theorem represents_halt (hrep : Represents c.table c.current threads)
    {parent : Nat} {saved : Nat × Nat} {caller : ProcessChain}
    {terminal : Fin numTerminals}
    (hchain : threads.chain terminal = .call c.current saved caller)
    (htop : caller.top = parent)
    (hstack : slotOfEsp (c.table parent).esp = parent) :
    Represents ((c.release c.current).returnTo c.current parent).table
      ((c.release c.current).returnTo c.current parent).current
      (threads.pop terminal hchain) := by
  have hnodup := threads.nodup terminal
  have hholds := hrep.holds terminal
  rw [hchain] at hnodup hholds
  obtain ⟨hfresh, hnodup⟩ := List.nodup_cons.mp hnodup
  obtain ⟨hlt, hprocess, -, -, hcaller⟩ := hholds
  have hcurrent : (threads.chain terminal).top = c.current := by
    rw [hchain]
    rfl
  have hparentMem : parent ∈ (threads.chain terminal).frames := by
    rw [hchain, ← htop]
    exact List.mem_cons_of_mem _ caller.top_mem_frames
  have hne : c.current ≠ parent := htop ▸ threads.callee_ne_caller hchain
  obtain ⟨hchildEntry, hparentEntry, hothers, hesp⟩ :=
    @halt_table c c.current parent hne
  have hnew : ((c.release c.current).returnTo c.current parent).current =
      parent := by
    rw [Core.current, hesp, hstack]
  have hapart {other : Fin numTerminals} (hother : other ≠ terminal)
      {slot : Nat} (hmem : slot ∈ (threads.chain other).frames) :
      ((c.release c.current).returnTo c.current parent).table slot =
        c.table slot := by
    refine hothers slot (hrep.ne_current hcurrent hother hmem) ?_
    rintro rfl
    exact hother (threads.thread_unique hmem hparentMem)
  generalize ((c.release c.current).returnTo c.current parent).table = table
    at *
  rw [hnew]
  refine ⟨?_, ?_, ?_, ⟨terminal, by rw [Threads.pop_chain_self, htop]⟩, ?_⟩
  · intro slot hslot
    by_cases hchild : slot = c.current
    · rw [hchild, hchildEntry]
      exact hrep.slotNum _ hlt
    · by_cases hparent : slot = parent
      · rw [hparent, hparentEntry]
        exact hrep.slotNum _ (hparent ▸ hslot)
      · rw [hothers slot hchild hparent]
        exact hrep.slotNum slot hslot
  · intro slot hslot hnow
    by_cases hchild : slot = c.current
    · rw [hchild, hchildEntry]
      exact ⟨rfl, rfl⟩
    · have hfree := threads.fresh_of_pop hnow hchild
      rw [hothers slot hchild fun heq => hfree terminal (heq ▸ hparentMem)]
      exact hrep.free slot hslot hfree
  · intro other
    by_cases hother : other = terminal
    · subst hother
      rw [Threads.pop_chain_self]
      refine hcaller.retop hnodup ?_ ?_
      · intro grandparent hbefore
        rw [htop, hparentEntry]
        rw [htop] at hbefore
        exact ⟨hbefore.inUse, hbefore.terminalNum, hbefore.parent, rfl⟩
      · intro slot hmem hnotTop
        exact hothers slot (fun heq => hfresh (heq ▸ hmem)) (htop ▸ hnotTop)
    · rw [threads.pop_chain_other hchain hother]
      exact (hrep.holds other).congr fun slot hmem => hapart hother hmem
  · intro other hnotTop
    by_cases hother : other = terminal
    · subst hother
      rw [Threads.pop_chain_self] at hnotTop
      exact absurd htop hnotTop
    · rw [threads.pop_chain_other hchain hother]
      have hmem := (threads.chain other).top_mem_frames
      rw [hapart hother hmem]
      exact hrep.resumable other (hrep.ne_current hcurrent hother hmem)

/-- Restarting a root program leaves the table as it was. -/
theorem restart_table (hrep : Represents c.table c.current threads)
    (hparent : (c.table c.current).parent = none) :
    ((c.release c.current).restart c.current).table = c.table ∧
      ((c.release c.current).restart c.current).current = c.current := by
  obtain ⟨terminal, hcurrent⟩ := hrep.current_top
  obtain ⟨parent, hprocess⟩ := (hrep.holds terminal).top_process
  obtain ⟨hlt, -⟩ := (hrep.holds terminal).process
    (threads.chain terminal).top_mem_frames
  rw [hcurrent] at hprocess hlt
  have hentry : { c.table c.current with
      parent := none, inUse := true, status := .running } =
      c.table c.current := by
    rw [← hparent, ← hprocess.inUse, ← hprocess.status]
  constructor
  · simp only [Core.release, Core.restart, Core.modify, Function.update_self,
      Function.update_idem, hentry, Function.update_eq_self]
  · rw [Core.current, Core.restart]
    simp only [Core.release, Core.modify, Function.update_self,
      hrep.slotNum _ hlt]
    exact slotOfEsp_base hlt

/-- Every kernel entry is a step of the threads. -/
theorem represents_step {event : KernelEvent} {label : ProcessLabel}
    {next : Core} (hrep : Represents c.table c.current threads)
    (hstep : CoreStep layout c event label next) :
    ∃ after, CallStep threads label after ∧
      Represents next.table next.current after := by
  obtain ⟨terminal, hcurrent⟩ := hrep.current_top
  obtain ⟨parent, hprocess⟩ := (hrep.holds terminal).top_process
  rw [hcurrent] at hprocess
  have hterminal : Fin.ofNat numTerminals (c.table c.current).terminalNum =
      terminal := by
    rw [hprocess.terminalNum]
    exact Fin.ofNat_val_eq_self terminal
  cases hstep with
  | idle => exact ⟨threads, .silent threads, hrep⟩
  | rejected => exact ⟨threads, .silent threads, hrep⟩
  | activate => exact ⟨threads, .silent threads, hrep⟩
  | switch _ next esp ebp _ hstack hnext hinUse hstatus =>
      exact ⟨threads, .silent threads,
        represents_switch hrep hstack hnext hinUse hstatus⟩
  | execute _ child esp ebp junk hstack hchild hfree =>
      have hfresh := hrep.fresh_of_free hfree
      have hcall := CallStep.call threads terminal child (esp, ebp) hfresh
      rw [hcurrent] at hcall
      rw [hterminal]
      exact ⟨_, hcall,
        represents_execute hrep junk hstack hchild hfresh hcurrent⟩
  | halt _ parent _ hparent =>
      obtain ⟨caller, hchain, htop, hstack⟩ :=
        chain_of_parent hrep hparent hcurrent
      have hret := CallStep.ret threads terminal hchain
      rw [htop] at hret
      rw [hterminal]
      exact ⟨_, hret, represents_halt hrep hchain htop hstack⟩
  | restart _ _ hparent =>
      obtain ⟨htable, hsame⟩ := restart_table hrep hparent
      rw [htable, hsame]
      exact ⟨threads, .silent threads, hrep⟩

end Steps

end PsychOS
