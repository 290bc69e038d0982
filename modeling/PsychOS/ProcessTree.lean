/-
The shape of the process table in every state the kernel can get to: three
chains of processes, one per terminal, of which only the ends run.
-/
import Mathlib.Data.Finset.Card
import Mathlib.Data.Fintype.Card
import Mathlib.Data.List.Chain
import PsychOS.Boot

namespace PsychOS

/-- A list that follows a partial function to its end is fixed by its head. -/
theorem isChain_unique {α : Type} (f : α → Option α) {first second : List α}
    (hfirst : first.IsChain fun a b => f a = some b)
    (hsecond : second.IsChain fun a b => f a = some b)
    (hhead : first.head? = second.head?)
    (hend : ∀ a ∈ first.getLast?, f a = none)
    (hend' : ∀ a ∈ second.getLast?, f a = none) : first = second := by
  induction first generalizing second with
  | nil => exact (List.head?_eq_none_iff.mp hhead.symm).symm
  | cons a rest ih =>
      obtain ⟨tail, rfl⟩ := List.head?_eq_some_iff.mp hhead.symm
      cases rest with
      | nil =>
          cases tail with
          | nil => rfl
          | cons b tail =>
              have hnone := hend a rfl
              rw [(List.isChain_cons_cons.mp hsecond).1] at hnone
              exact absurd hnone (by simp)
      | cons b rest =>
          obtain ⟨hstep, hrest⟩ := List.isChain_cons_cons.mp hfirst
          cases tail with
          | nil =>
              rw [hend' a rfl] at hstep
              exact absurd hstep (by simp)
          | cons b' tail =>
              obtain ⟨hstep', htail⟩ := List.isChain_cons_cons.mp hsecond
              obtain rfl : b = b' :=
                Option.some.inj (hstep.symm.trans hstep')
              exact congrArg (List.cons a) (ih hrest htail rfl hend hend')

section Chains

variable {table : Nat → ProcessEntry} {terminal : Fin numTerminals}
  {chain : ProcessChain} {status : Status} {slot : Nat}

theorem CallChain.frames_head? {α κ : Type} (chain : CallChain α κ) :
    chain.frames.head? = some chain.top := by
  rw [chain.frames_eq]
  rfl

/-- Each process of a chain has the next one as its parent. -/
theorem Holds.isChain (hholds : Holds table terminal chain status) :
    chain.frames.IsChain fun slot parent =>
      (table slot).parent = some parent := by
  induction chain generalizing status with
  | root slot => exact List.isChain_singleton slot
  | call slot saved caller ih =>
      obtain ⟨-, hprocess, -, -, hcaller⟩ := hholds
      refine (ih hcaller).cons fun parent hparent => ?_
      rw [caller.frames_head?] at hparent
      rw [hprocess.parent, Option.mem_some_iff.mp hparent]

theorem Holds.root (hholds : Holds table terminal chain status) :
    chain.frames.getLast? = some (terminal : Nat) ∧
      (table terminal).parent = none := by
  induction chain generalizing status with
  | root slot =>
      obtain ⟨rfl, hprocess⟩ := hholds
      exact ⟨rfl, hprocess.parent⟩
  | call slot saved caller ih =>
      obtain ⟨hlast, hnone⟩ := ih hholds.2.2.2.2
      refine ⟨?_, hnone⟩
      rw [CallChain.frames, List.getLast?_cons, hlast]
      rfl

/-- The parent of a process is further up its chain. -/
theorem Holds.parent_mem (hholds : Holds table terminal chain status)
    (hnodup : chain.frames.Nodup) (hmem : slot ∈ chain.frames) {parent : Nat}
    (hparent : (table slot).parent = some parent) :
    parent ∈ chain.frames ∧ parent ≠ chain.top := by
  induction chain generalizing status with
  | root root =>
      obtain rfl := List.mem_singleton.mp hmem
      rw [hholds.2.parent] at hparent
      exact absurd hparent (by simp)
  | call top saved caller ih =>
      obtain ⟨-, hprocess, -, -, hcaller⟩ := hholds
      obtain ⟨hfresh, hnodup⟩ := List.nodup_cons.mp hnodup
      have habove : parent ∈ caller.frames := by
        rcases List.mem_cons.mp hmem with rfl | hmem
        · rw [hprocess.parent] at hparent
          exact Option.some.inj hparent ▸ caller.top_mem_frames
        · exact (ih hcaller hnodup hmem).1
      exact ⟨List.mem_cons_of_mem top habove,
        fun (heq : parent = top) => hfresh (heq ▸ habove)⟩

/-- Every process of a chain but the last is the parent of exactly one. -/
theorem Holds.child_unique (hholds : Holds table terminal chain status)
    (hnodup : chain.frames.Nodup) (hmem : slot ∈ chain.frames)
    (hnotTop : slot ≠ chain.top) :
    ∃! child, child ∈ chain.frames ∧ (table child).parent = some slot := by
  induction chain generalizing status with
  | root root => exact absurd (List.mem_singleton.mp hmem) hnotTop
  | call top saved caller ih =>
      obtain ⟨-, hprocess, -, -, hcaller⟩ := hholds
      obtain ⟨hfresh, hnodup⟩ := List.nodup_cons.mp hnodup
      have hmem : slot ∈ caller.frames :=
        (List.mem_cons.mp hmem).resolve_left hnotTop
      by_cases htop : slot = caller.top
      · subst htop
        refine ⟨top, ⟨List.mem_cons_self, hprocess.parent⟩, ?_⟩
        rintro child ⟨hchild, hparent⟩
        rcases List.mem_cons.mp hchild with heq | hchild
        · exact heq
        · exact absurd rfl (hcaller.parent_mem hnodup hchild hparent).2
      · obtain ⟨child, ⟨hchild, hparent⟩, honly⟩ := ih hcaller hnodup hmem htop
        refine ⟨child, ⟨List.mem_cons_of_mem top hchild, hparent⟩, ?_⟩
        rintro other ⟨hother, hparent'⟩
        rcases List.mem_cons.mp hother with rfl | hother
        · rw [hprocess.parent] at hparent'
          exact absurd (Option.some.inj hparent').symm htop
        · exact honly other ⟨hother, hparent'⟩

theorem Holds.status_iff (hholds : Holds table terminal chain .running)
    (hmem : slot ∈ chain.frames) :
    ((table slot).status = .running ↔ slot = chain.top) ∧
      ((table slot).status = .blocked ↔ slot ≠ chain.top) := by
  by_cases htop : slot = chain.top
  · obtain ⟨parent, hprocess⟩ := hholds.top_process
    rw [htop, hprocess.status]
    simp
  · obtain ⟨-, parent, ⟨-, heq⟩ | hblocked⟩ := hholds.process hmem
    · exact absurd heq htop
    · rw [hblocked.status]
      simp [htop]

theorem Holds.entry (hholds : Holds table terminal chain status)
    (hmem : slot ∈ chain.frames) :
    slot < maxProcesses ∧ (table slot).inUse = true ∧
      (table slot).terminalNum = terminal := by
  obtain ⟨hlt, parent, ⟨hprocess, -⟩ | hprocess⟩ := hholds.process hmem
  · exact ⟨hlt, hprocess.inUse, hprocess.terminalNum⟩
  · exact ⟨hlt, hprocess.inUse, hprocess.terminalNum⟩

end Chains

/-- The PCB is in use and has the slot as its parent. -/
def Kernel.IsChild (k : Kernel) (slot child : Nat) : Prop :=
  child < maxProcesses ∧ (k.pcb child).inUse = true ∧
    (k.pcb child).parent = some slot

/-- The process is in use and can run. -/
def Kernel.IsRunning (k : Kernel) (slot : Nat) : Prop :=
  (k.pcb slot).inUse = true ∧ (k.pcb slot).status = .running

instance (k : Kernel) : DecidablePred k.IsRunning := fun _ =>
  inferInstanceAs (Decidable (_ ∧ _))

/-- The processes of the terminal, from the one that runs to the root. -/
structure TerminalChain (k : Kernel) (terminal : Nat) (chain : List Nat) :
    Prop where
  nodup : chain.Nodup
  mem_iff : ∀ slot, slot ∈ chain ↔ slot < maxProcesses ∧
    (k.pcb slot).inUse = true ∧ (k.pcb slot).terminalNum = terminal
  linked : chain.IsChain fun slot parent => (k.pcb slot).parent = some parent
  root : chain.getLast? = some terminal
  leaf : ∃ leaf, chain.head? = some leaf ∧
    ∀ slot ∈ chain, (k.pcb slot).status = .running ↔ slot = leaf

/-- What the process table looks like at any time. -/
structure ProcessTree (k : Kernel) : Prop where
  current : k.current < maxProcesses ∧ k.IsRunning k.current
  status_inUse : ∀ slot < maxProcesses, (k.pcb slot).inUse = true →
    (k.pcb slot).status = .running ∨ (k.pcb slot).status = .blocked
  status_free : ∀ slot < maxProcesses, (k.pcb slot).inUse = false →
    (k.pcb slot).status = .none
  roots : ∀ slot < numTerminals,
    (k.pcb slot).inUse = true ∧ (k.pcb slot).parent = none
  parents : ∀ slot child, k.IsChild slot child → slot < maxProcesses ∧
    (k.pcb slot).inUse = true ∧ (k.pcb slot).status = .blocked ∧
    (k.pcb slot).terminalNum = (k.pcb child).terminalNum
  blocked_iff : ∀ slot < maxProcesses,
    (k.pcb slot).status = .blocked ↔ ∃! child, k.IsChild slot child
  running_iff : ∀ slot < maxProcesses, (k.pcb slot).inUse = true →
    ((k.pcb slot).status = .running ↔ ¬ ∃ child, k.IsChild slot child)
  terminals : ∀ slot < maxProcesses, (k.pcb slot).inUse = true →
    (k.pcb slot).terminalNum < numTerminals
  chains : ∀ terminal < numTerminals, ∃! chain, TerminalChain k terminal chain
  running_card :
    ((Finset.range maxProcesses).filter k.IsRunning).card = numTerminals

section Tree

variable {k : Kernel} {threads : ProcessThreads}
  (hrep : Represents k.core.table k.current threads)

include hrep

theorem Represents.isChild_iff {slot child : Nat} {terminal : Fin numTerminals}
    (hmem : slot ∈ (threads.chain terminal).frames) :
    k.IsChild slot child ↔ child ∈ (threads.chain terminal).frames ∧
      (k.core.table child).parent = some slot := by
  constructor
  · rintro ⟨hlt, hinUse, hparent⟩
    obtain ⟨other, hother⟩ := hrep.of_inUse hlt hinUse
    have habove := ((hrep.holds other).parent_mem (threads.nodup other) hother
      hparent).1
    rw [threads.thread_unique hmem habove]
    exact ⟨hother, hparent⟩
  · rintro ⟨hchild, hparent⟩
    obtain ⟨hlt, hinUse, -⟩ := (hrep.holds terminal).entry hchild
    exact ⟨hlt, hinUse, hparent⟩

theorem Represents.blocked_of_isChild {slot child : Nat}
    (hchild : k.IsChild slot child) :
    ∃ terminal, slot ∈ (threads.chain terminal).frames ∧
      child ∈ (threads.chain terminal).frames ∧
      slot ≠ (threads.chain terminal).top := by
  obtain ⟨hlt, hinUse, hparent⟩ := hchild
  obtain ⟨terminal, hmem⟩ := hrep.of_inUse hlt hinUse
  obtain ⟨habove, hnotTop⟩ := (hrep.holds terminal).parent_mem
    (threads.nodup terminal) hmem hparent
  exact ⟨terminal, habove, hmem, hnotTop⟩

theorem Represents.terminalChain (terminal : Fin numTerminals) :
    TerminalChain k terminal (threads.chain terminal).frames where
  nodup := threads.nodup terminal
  mem_iff slot := by
    constructor
    · exact (hrep.holds terminal).entry
    · rintro ⟨hlt, hinUse, hterminal⟩
      obtain ⟨other, hmem⟩ := hrep.of_inUse hlt hinUse
      have hother := ((hrep.holds other).entry hmem).2.2
      have heq : other = terminal := Fin.ext (hother.symm.trans hterminal)
      exact heq ▸ hmem
  linked := (hrep.holds terminal).isChain
  root := (hrep.holds terminal).root.1
  leaf := ⟨_, (threads.chain terminal).frames_head?, fun _ hmem =>
    ((hrep.holds terminal).status_iff hmem).1⟩

theorem Represents.terminalChain_unique (terminal : Fin numTerminals)
    {chain : List Nat} (hchain : TerminalChain k terminal chain) :
    chain = (threads.chain terminal).frames := by
  have hours := hrep.terminalChain terminal
  have hroot : ∀ slot ∈ some (terminal : Nat), (k.pcb slot).parent = none := by
    intro slot hslot
    rw [← Option.mem_some_iff.mp hslot]
    exact (hrep.holds terminal).root.2
  refine isChain_unique (fun slot => (k.pcb slot).parent) hchain.linked
    hours.linked ?_ (hchain.root ▸ hroot) (hours.root ▸ hroot)
  -- both start at the one process of the terminal that runs
  obtain ⟨leaf, hhead, hleaf⟩ := hchain.leaf
  have hmem : leaf ∈ chain := List.mem_of_mem_head? hhead
  have hrunning := (hleaf leaf hmem).mpr rfl
  have htop := ((hrep.holds terminal).status_iff
    ((hours.mem_iff leaf).mpr ((hchain.mem_iff leaf).mp hmem))).1.mp hrunning
  rw [hhead, htop, CallChain.frames_head?]

theorem Represents.running_eq : (Finset.range maxProcesses).filter
    k.IsRunning = Finset.univ.image fun terminal =>
      (threads.chain terminal).top := by
  ext slot
  simp only [Finset.mem_filter, Finset.mem_range, Finset.mem_image,
    Finset.mem_univ, true_and]
  constructor
  · rintro ⟨hlt, hinUse, hstatus⟩
    exact hrep.top_of_running hlt hinUse hstatus
  · rintro ⟨terminal, rfl⟩
    have hmem := (threads.chain terminal).top_mem_frames
    obtain ⟨hlt, hinUse, -⟩ := (hrep.holds terminal).entry hmem
    exact ⟨hlt, hinUse, ((hrep.holds terminal).status_iff hmem).1.mpr rfl⟩

theorem Represents.running_card :
    ((Finset.range maxProcesses).filter k.IsRunning).card = numTerminals := by
  rw [hrep.running_eq, Finset.card_image_of_injective _ threads.top_injective,
    Finset.card_univ, Fintype.card_fin]

theorem Represents.blocked_iff {slot : Nat} (hlt : slot < maxProcesses) :
    (k.pcb slot).status = .blocked ↔ ∃! child, k.IsChild slot child := by
  constructor
  · intro hblocked
    have hinUse : (k.pcb slot).inUse = true := by
      by_contra hfree
      have hfresh := hrep.fresh_of_free (Bool.eq_false_iff.mpr hfree)
      have hnone : (k.pcb slot).status = .none := (hrep.free slot hlt hfresh).2
      rw [hblocked] at hnone
      exact Status.noConfusion hnone
    obtain ⟨terminal, hmem⟩ := hrep.of_inUse hlt hinUse
    have hnotTop := ((hrep.holds terminal).status_iff hmem).2.mp hblocked
    simp only [hrep.isChild_iff hmem]
    exact (hrep.holds terminal).child_unique (threads.nodup terminal) hmem
      hnotTop
  · rintro ⟨child, hchild, -⟩
    obtain ⟨terminal, hmem, -, hnotTop⟩ := hrep.blocked_of_isChild hchild
    exact ((hrep.holds terminal).status_iff hmem).2.mpr hnotTop

theorem Represents.processTree : ProcessTree k := by
  have hstatus {slot : Nat} (hlt : slot < maxProcesses)
      (hinUse : (k.pcb slot).inUse = true) :
      ∃ terminal, slot ∈ (threads.chain terminal).frames ∧
        ((k.pcb slot).status = .running ↔
          slot = (threads.chain terminal).top) ∧
        ((k.pcb slot).status = .blocked ↔
          slot ≠ (threads.chain terminal).top) := by
    obtain ⟨terminal, hmem⟩ := hrep.of_inUse hlt hinUse
    exact ⟨terminal, hmem, (hrep.holds terminal).status_iff hmem⟩
  refine ⟨?_, ?_, ?_, ?_, ?_, fun slot => hrep.blocked_iff, ?_, ?_, ?_,
    hrep.running_card⟩
  · obtain ⟨terminal, hcurrent⟩ := hrep.current_top
    have hmem := (threads.chain terminal).top_mem_frames
    rw [hcurrent] at hmem
    obtain ⟨hlt, hinUse, -⟩ := (hrep.holds terminal).entry hmem
    exact ⟨hlt, hinUse,
      ((hrep.holds terminal).status_iff hmem).1.mpr hcurrent.symm⟩
  · intro slot hlt hinUse
    obtain ⟨terminal, -, hrunning, hblocked⟩ := hstatus hlt hinUse
    by_cases htop : slot = (threads.chain terminal).top
    · exact Or.inl (hrunning.mpr htop)
    · exact Or.inr (hblocked.mpr htop)
  · intro slot hlt hfree
    exact (hrep.free slot hlt (hrep.fresh_of_free hfree)).2
  · intro slot hlt
    have hroot := (hrep.holds ⟨slot, hlt⟩).root
    have hmem : slot ∈ (threads.chain ⟨slot, hlt⟩).frames :=
      List.mem_of_mem_getLast? hroot.1
    exact ⟨((hrep.holds ⟨slot, hlt⟩).entry hmem).2.1, hroot.2⟩
  · intro slot child hchild
    obtain ⟨terminal, hmem, hbelow, hnotTop⟩ :=
      hrep.blocked_of_isChild hchild
    obtain ⟨hlt, hinUse, hterminal⟩ := (hrep.holds terminal).entry hmem
    have hterminal' := ((hrep.holds terminal).entry hbelow).2.2
    exact ⟨hlt, hinUse, ((hrep.holds terminal).status_iff hmem).2.mpr hnotTop,
      hterminal.trans hterminal'.symm⟩
  · intro slot hlt hinUse
    obtain ⟨terminal, hmem, hrunning, hblocked⟩ := hstatus hlt hinUse
    constructor
    · rintro hrun ⟨child, hchild⟩
      obtain ⟨other, hmem', -, hnotTop⟩ := hrep.blocked_of_isChild hchild
      rw [threads.thread_unique hmem' hmem] at hnotTop
      exact hnotTop (hrunning.mp hrun)
    · intro hnone
      by_contra hnot
      have hnotTop := fun htop => hnot (hrunning.mpr htop)
      obtain ⟨child, hchild, -⟩ :=
        (hrep.blocked_iff hlt).mp (hblocked.mpr hnotTop)
      exact hnone ⟨child, hchild⟩
  · intro slot hlt hinUse
    obtain ⟨terminal, hmem⟩ := hrep.of_inUse hlt hinUse
    have hterminal : (k.pcb slot).terminalNum = terminal :=
      ((hrep.holds terminal).entry hmem).2.2
    rw [hterminal]
    exact terminal.isLt
  · intro terminal hlt
    exact ⟨_, hrep.terminalChain ⟨terminal, hlt⟩, fun _ hchain =>
      hrep.terminalChain_unique ⟨terminal, hlt⟩ hchain⟩

end Tree

/-- Whatever the processes do and however the timer interleaves them, after a
boot over memory without stale stack pointers the table is a tree of three
chains. -/
theorem process_tree_invariant (img : Image) (layout : Layout)
    {start k : Kernel}
    {transitions : List (Transition Kernel KernelEvent Outcome)}
    (hboot : Booted img layout start)
    (hexec : Execution (kernelStep img layout) start transitions k) :
    ProcessTree k := by
  obtain ⟨threads, -, hrep⟩ := execution_represents hboot hexec
  exact hrep.processTree

/-- Two ticks, and three programs that start each other on the third
terminal. -/
def nestedShells : List KernelEvent :=
  [.tick (sampleEsp 0) 0, .tick (sampleEsp 1) 0,
    .execute [115] (sampleEsp 2) 0 Junk.zero,
    .execute [115] (sampleEsp 3) 0 Junk.zero,
    .execute [115] (sampleEsp 4) 0 Junk.zero]

theorem nestedShells_processTree : ∃ transitions k,
    Execution (kernelStep shellImage sampleLayout) sampleKernel transitions
        k ∧
      transitions.map Transition.event = nestedShells ∧ k.current = 5 ∧
      ProcessTree k := by
  have hrun : (trace (kernelStep shellImage sampleLayout) sampleKernel
      nestedShells).map (fun result => result.2.current) = some 5 := by
    decide +kernel
  obtain ⟨⟨transitions, k⟩, htrace, hcurrent⟩ :=
    Option.map_eq_some_iff.mp hrun
  obtain ⟨hexec, hevents⟩ := trace_execution htrace
  exact ⟨transitions, k, hexec, hevents, hcurrent,
    process_tree_invariant shellImage sampleLayout sampleKernel_booted hexec⟩

/-- Memory with a stack pointer left in the PCB of the second root program. -/
def staleMemory : Kernel :=
  Kernel.zeroed.modify 1 fun pcb => { pcb with esp := sampleEsp 4 }

/-- After a boot over such memory the first tick goes on from that stack pointer
instead of entering the program, and so in the name of a PCB that is free. -/
theorem stale_stack_breaks_tree : ∃ start transitions k,
    kernelRunFirstProgram shellImage sampleLayout [115] (fun _ => Junk.zero)
        staleMemory = some start ∧
      Execution (kernelStep shellImage sampleLayout) start transitions k ∧
      transitions.map Transition.event = [.tick (sampleEsp 0) 0] ∧
      k.current = 4 ∧ (k.pcb 4).inUse = false ∧ ¬ ProcessTree k := by
  have hrun : ((kernelRunFirstProgram shellImage sampleLayout [115]
      (fun _ => Junk.zero) staleMemory).bind fun start =>
        (trace (kernelStep shellImage sampleLayout) start
          [.tick (sampleEsp 0) 0]).map fun result =>
            (result.2.current, (result.2.pcb 4).inUse)) = some (4, false) := by
    decide +kernel
  obtain ⟨start, hboot, hmap⟩ := Option.bind_eq_some_iff.mp hrun
  obtain ⟨⟨transitions, k⟩, htrace, heq⟩ := Option.map_eq_some_iff.mp hmap
  obtain ⟨hcurrent, hfree⟩ := Prod.mk.inj heq
  obtain ⟨hexec, hevents⟩ := trace_execution htrace
  refine ⟨start, transitions, k, hboot, hexec, hevents, hcurrent, hfree, ?_⟩
  intro htree
  have hinUse := htree.current.2.1
  rw [hcurrent, hfree] at hinUse
  exact Bool.false_ne_true hinUse

end PsychOS
