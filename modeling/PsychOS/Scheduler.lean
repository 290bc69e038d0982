/-
The order in which the timer runs the processes.  The loop of `scheduler` goes
round the table, but it starts at the slot after the current one without
reducing it, so that from the last slot it looks at memory below the table and
then goes on with slot 1.
-/
import PsychOS.Lib.RoundRobin
import PsychOS.ProcessTree

namespace PsychOS

/-- One call of `scheduler` does what round robin asks for: it looks at the
table only, switches to the next process that can run, and makes no switch only
if there is no other such process. -/
def RoundRobinCall (k : Kernel) : Prop :=
  ∃ examined found, schedulerScan k = some (examined, found) ∧
    (∀ slot ∈ examined, slot < maxProcesses) ∧
    (∀ next, found = some next →
      FirstAfter maxProcesses k.IsRunning k.current next) ∧
    (found = none → ∀ slot < maxProcesses, slot ≠ k.current →
      ¬ k.IsRunning slot)

/-- Timer interrupts, with whatever registers they find. -/
def tickStep (layout : Layout) : OutFn Kernel (Nat × Nat) Outcome :=
  fun k (esp, ebp) =>
    if k.OnStack esp then scheduler layout k esp ebp else none

/-- Any number of ticks makes only such calls, and as many ticks as there are
processes that can run switch to each of them once. -/
def RoundRobin (layout : Layout) (k : Kernel) : Prop :=
  ∀ ticks final, Execution (tickStep layout) k ticks final →
    (∀ tick ∈ ticks, RoundRobinCall tick.before) ∧
    (ticks.length = ((Finset.range maxProcesses).filter k.IsRunning).card →
      (ticks.map fun tick => tick.after.current).Nodup ∧
      ∀ slot, slot ∈ ticks.map (fun tick => tick.after.current) ↔
        slot < maxProcesses ∧ k.IsRunning slot)

section Loop

variable {k : Kernel} {last : Nat}

/-- The loop from `i` on, if it meets `last` after `turns` turns. -/
theorem schedulerLoop_spec (turns : Nat) {fuel i : Nat} (hfuel : turns < fuel)
    (hi : i < maxProcesses) (hlast : (i + turns) % maxProcesses = last)
    (hbefore : ∀ d < turns, (i + d) % maxProcesses ≠ last) :
    ∃ examined found,
      schedulerLoop k.pcb last fuel i = some (examined, found) ∧
      (∀ slot ∈ examined, slot < maxProcesses) ∧
      (∀ next, found = some next → ∃ d < turns,
        next = (i + d) % maxProcesses ∧ k.IsRunning next ∧
        ∀ d' < d, ¬ k.IsRunning ((i + d') % maxProcesses)) ∧
      (found = none → ∀ d < turns,
        ¬ k.IsRunning ((i + d) % maxProcesses)) := by
  obtain ⟨fuel, rfl⟩ : ∃ f, fuel = f + 1 := ⟨fuel - 1, by omega⟩
  induction turns generalizing fuel i with
  | zero =>
      have heq : i = last := (Nat.mod_eq_of_lt hi).symm.trans hlast
      refine ⟨[], none, ?_, ?_, ?_, ?_⟩
      · rw [schedulerLoop, if_pos heq]
      · exact fun slot hslot => absurd hslot List.not_mem_nil
      · exact fun next hnext => absurd hnext (by simp)
      · exact fun _ d hd => absurd hd (Nat.not_lt_zero d)
  | succ turns ih =>
      have hplace : i % maxProcesses = i := Nat.mod_eq_of_lt hi
      have hne : i ≠ last := by
        have hfirst := hbefore 0 (Nat.succ_pos turns)
        rw [Nat.add_zero, hplace] at hfirst
        exact hfirst
      by_cases hrunning : k.IsRunning i
      · refine ⟨[i], some i, ?_, ?_, ?_, ?_⟩
        · rw [schedulerLoop, if_neg hne]
          exact if_pos hrunning
        · intro slot hslot
          rw [List.mem_singleton.mp hslot]
          exact hi
        · intro next hnext
          obtain rfl : i = next := Option.some.inj hnext
          exact ⟨0, Nat.succ_pos turns, hplace.symm, hrunning,
            fun d' hd' => absurd hd' (Nat.not_lt_zero d')⟩
        · exact fun hnone => absurd hnone (by simp)
      · have hshift : ∀ d, ((i + 1) % maxProcesses + d) % maxProcesses =
            (i + (d + 1)) % maxProcesses := by
          intro d
          rw [Nat.mod_add_mod, Nat.add_right_comm, Nat.add_assoc]
        obtain ⟨fuel, rfl⟩ : ∃ f, fuel = f + 1 := ⟨fuel - 1, by omega⟩
        obtain ⟨examined, found, hloop, htable, hfound, hnone⟩ :=
          @ih ((i + 1) % maxProcesses) (Nat.mod_lt _ (by decide))
            ((hshift turns).trans hlast)
            (fun d hd => (hshift d).symm ▸ hbefore (d + 1) (by omega)) fuel
            (by omega)
        have hfirst : ¬ k.IsRunning ((i + 0) % maxProcesses) := by
          rw [Nat.add_zero, hplace]
          exact hrunning
        refine ⟨i :: examined, found, ?_, ?_, ?_, ?_⟩
        · rw [schedulerLoop, if_neg hne, hloop]
          exact if_neg hrunning
        · intro slot hslot
          rcases List.mem_cons.mp hslot with rfl | hslot
          · exact hi
          · exact htable slot hslot
        · intro next hnext
          obtain ⟨d, hd, rfl, hnextRunning, hearlier⟩ := hfound next hnext
          refine ⟨d + 1, by omega, hshift d, hnextRunning, ?_⟩
          intro d' hd'
          cases d' with
          | zero => exact hfirst
          | succ d' => exact hshift d' ▸ hearlier d' (by omega)
        · intro hempty d hd
          cases d with
          | zero => exact hfirst
          | succ d => exact hshift d ▸ hnone hempty d (by omega)

end Loop

section Scan

variable {k : Kernel} {threads : ProcessThreads}
  (hrep : Represents k.core.table k.current threads)

include hrep

theorem current_lt : k.current < maxProcesses ∧ k.IsRunning k.current :=
  hrep.processTree.current

/-- Of three processes that can run, one is in the four slots after the current
one: the slots that are left hold only two. -/
theorem exists_running_after :
    ∃ d < 4, k.IsRunning ((k.current + 1 + d) % maxProcesses) := by
  have hlt := (current_lt hrep).1
  by_contra hnone
  have hsub : (Finset.range maxProcesses).filter k.IsRunning ⊆
      {k.current, (k.current + 5) % 6} := by
    intro slot hslot
    obtain ⟨hslotLt, hrunning⟩ := Finset.mem_filter.mp hslot
    rw [Finset.mem_range] at hslotLt
    simp only [maxProcesses] at hlt hslotLt hnone
    rw [Finset.mem_insert, Finset.mem_singleton]
    by_contra hother
    have hplace : (k.current + 1 + (slot + 5 - k.current) % 6) % 6 =
        slot := by omega
    exact hnone ⟨(slot + 5 - k.current) % 6, by omega,
      hplace.symm ▸ hrunning⟩
  have hcard := Finset.card_le_card hsub
  rw [hrep.running_card] at hcard
  exact absurd (hcard.trans Finset.card_le_two) (by decide)

/-- From any slot but the last the scan finds the next process in the table.
It leaves out the slot before the current one, but of three processes that can
run that one is never the next. -/
theorem schedulerScan_spec (hcurrent : k.current ≠ maxProcesses - 1) :
    ∃ examined next, schedulerScan k = some (examined, some next) ∧
      (∀ slot ∈ examined, slot < maxProcesses) ∧ next < maxProcesses ∧
      FirstAfter maxProcesses k.IsRunning k.current next := by
  have hlt := (current_lt hrep).1
  have hslotNum : k.currentPcb.slotNum = k.current :=
    hrep.slotNum k.current hlt
  simp only [maxProcesses] at hlt hcurrent
  have hlast : (if k.current = 0 then maxProcesses - 1 else k.current - 1) =
      (k.current + 1 + 4) % maxProcesses := by
    simp only [maxProcesses]
    split <;> omega
  have hscan : schedulerScan k = schedulerLoop k.pcb
      ((k.current + 1 + 4) % maxProcesses) (maxProcesses + 1)
      (k.current + 1) := by
    rw [schedulerScan, hslotNum, hlast]
  obtain ⟨examined, found, hloop, htable, hfound, hnone⟩ :=
    @schedulerLoop_spec k _ 4 (maxProcesses + 1) (k.current + 1) (by decide)
      (by simp only [maxProcesses]; omega) rfl
      (by intro d hd; simp only [maxProcesses]; omega)
  cases found with
  | none =>
      obtain ⟨d, hd, hrunning⟩ := exists_running_after hrep
      exact absurd hrunning (hnone rfl d hd)
  | some next =>
      obtain ⟨d, hd, hplace, hrunning, hearlier⟩ := hfound next rfl
      refine ⟨examined, next, hscan.trans hloop, htable, ?_, d + 1,
        Nat.succ_pos d, ?_, ?_, hrunning, ?_⟩
      · rw [hplace]
        exact Nat.mod_lt _ (by decide)
      · simp only [maxProcesses]
        omega
      · rw [hplace, Nat.add_assoc, Nat.add_comm 1 d]
      · intro d' hpos hlt'
        obtain ⟨e, rfl⟩ : ∃ e, d' = e + 1 := ⟨d' - 1, by omega⟩
        have hnot := hearlier e (by omega)
        rw [Nat.add_assoc, Nat.add_comm 1 e] at hnot
        exact hnot

/-- From the last slot the scan first looks below the table. -/
theorem schedulerScan_last (hcurrent : k.current = maxProcesses - 1) :
    ∃ examined found,
      schedulerScan k = some (maxProcesses :: examined, found) := by
  have hslotNum : k.currentPcb.slotNum = maxProcesses - 1 :=
    (hrep.slotNum k.current (current_lt hrep).1).trans hcurrent
  have hscan : schedulerScan k = schedulerLoop k.pcb 4 7 6 := by
    rw [schedulerScan, hslotNum]
    rfl
  obtain ⟨examined, found, hloop, -⟩ :=
    @schedulerLoop_spec k 4 3 6 1 (by decide) (by decide) rfl (by decide)
  rw [hscan, schedulerLoop, if_neg (by decide)]
  split
  · exact ⟨[], some 6, rfl⟩
  · refine ⟨examined, found, ?_⟩
    rw [show (6 + 1) % maxProcesses = 1 from rfl, hloop]
    rfl

theorem roundRobinCall_iff :
    RoundRobinCall k ↔ k.current ≠ maxProcesses - 1 := by
  constructor
  · rintro ⟨examined, found, hscan, htable, -⟩ hcurrent
    obtain ⟨rest, found', hlast⟩ := schedulerScan_last hrep hcurrent
    obtain ⟨rfl, -⟩ := Prod.mk.inj (Option.some.inj (hscan.symm.trans hlast))
    exact absurd (htable maxProcesses List.mem_cons_self) (Nat.lt_irrefl _)
  · intro hcurrent
    obtain ⟨examined, next, hscan, htable, -, hfirst⟩ :=
      schedulerScan_spec hrep hcurrent
    refine ⟨examined, some next, hscan, htable, ?_, fun hnone => ?_⟩
    · intro other hother
      exact Option.some.inj hother ▸ hfirst
    · exact absurd hnone (by simp)

end Scan

section Ticks

variable {layout : Layout} {k : Kernel} {threads : ProcessThreads}

/-- A context switch keeps the set of processes that can run. -/
theorem contextSwitch_isRunning (last next esp ebp slot : Nat) :
    (contextSwitch layout k last next esp ebp).1.IsRunning slot ↔
      k.IsRunning slot := by
  have htable : (contextSwitch layout k last next esp ebp).1.core.table =
      Function.update k.core.table last
        { k.core.table last with esp := esp, ebp := ebp } := by
    rw [contextSwitch_core, Core.contextSwitch, resume_table]
    rfl
  have hkeep {β : Type} (p : ProcessEntry → β)
      (hregs : ∀ entry esp ebp,
        p { entry with esp := esp, ebp := ebp } = p entry) :
      p ((contextSwitch layout k last next esp ebp).1.pcb slot).entry =
        p (k.pcb slot).entry :=
    (congrArg (fun table => p (table slot)) htable).trans
      (update_keeps p k.core.table (hregs _ _ _) slot)
  have hinUse := hkeep ProcessEntry.inUse fun _ _ _ => rfl
  have hstatus := hkeep ProcessEntry.status fun _ _ _ => rfl
  exact and_congr (Eq.congr_left hinUse) (Eq.congr_left hstatus)

/-- A tick from any slot but the last. -/
theorem tick_spec (hrep : Represents k.core.table k.current threads)
    (hcurrent : k.current ≠ maxProcesses - 1) {esp ebp : Nat}
    (hstack : k.OnStack esp) :
    ∃ final answer, tickStep layout k (esp, ebp) = some (final, answer) ∧
      FirstAfter maxProcesses k.IsRunning k.current final.current ∧
      Represents final.core.table final.current threads ∧
      ∀ slot, final.IsRunning slot ↔ k.IsRunning slot := by
  obtain ⟨examined, next, hscan, -, hlt, hfirst⟩ :=
    schedulerScan_spec hrep hcurrent
  have hrunning : k.IsRunning next := hfirst.choose_spec.2.2.2.1
  obtain ⟨terminal, htop⟩ := hrep.top_of_running hlt hrunning.1 hrunning.2
  have hisRunning :=
    @contextSwitch_isRunning layout k k.current next esp ebp
  have hcore := @contextSwitch_core layout k k.current next esp ebp
  rcases hswitch : contextSwitch layout k k.current next esp ebp with
    ⟨final, answer⟩
  rw [hswitch] at hisRunning hcore
  have hnew : final.current = next := by
    rw [← core_current final, hcore]
    exact contextSwitch_current hrep hstack.2 htop
  refine ⟨final, answer, ?_, ?_, ?_, hisRunning⟩
  · rw [tickStep, if_pos hstack, scheduler, hscan, Option.map_some]
    exact congrArg some hswitch
  · rw [hnew]
    exact hfirst
  · rw [← core_current final, hcore]
    exact represents_switch hrep hstack.2 hlt hrunning.1 hrunning.2

/-- Ticks while the last slot does not run: the stops go round. -/
theorem ticks_chain (hrep : Represents k.core.table k.current threads)
    (hlast : ¬ k.IsRunning (maxProcesses - 1))
    {ticks : List (Transition Kernel (Nat × Nat) Outcome)} {final : Kernel}
    (hexec : Execution (tickStep layout) k ticks final) :
    (∀ tick ∈ ticks, RoundRobinCall tick.before) ∧
      Represents final.core.table final.current threads ∧
      (∀ slot, final.IsRunning slot ↔ k.IsRunning slot) ∧
      (k.current :: ticks.map fun tick => tick.after.current).IsChain
        (FirstAfter maxProcesses k.IsRunning) ∧
      (k.current :: ticks.map fun tick => tick.after.current).getLast? =
        some final.current := by
  induction hexec with
  | nil =>
      exact ⟨fun tick htick => absurd htick List.not_mem_nil, hrep,
        fun _ => Iff.rfl, List.isChain_singleton _, rfl⟩
  | @concat earlier state next event answer _ hstep ih =>
      obtain ⟨hcalls, hrep', hsame, hchain, hend⟩ := ih
      have hcurrent : state.current ≠ maxProcesses - 1 := by
        intro heq
        have hrunning := (current_lt hrep').2
        rw [heq] at hrunning
        exact hlast ((hsame _).mp hrunning)
      obtain ⟨esp, ebp⟩ := event
      have hstack := (Option.ite_none_right_eq_some.mp hstep).1
      obtain ⟨final, answer', htick, hfirst, hrepNext, hsameNext⟩ :=
        @tick_spec layout state threads hrep' hcurrent esp ebp hstack
      obtain ⟨rfl, rfl⟩ :=
        Prod.mk.inj (Option.some.inj (hstep.symm.trans htick))
      have hmarked : state.IsRunning = k.IsRunning :=
        funext fun slot => propext (hsame slot)
      rw [hmarked] at hfirst
      rw [List.map_append, ← List.cons_append]
      refine ⟨?_, hrepNext, fun slot => (hsameNext slot).trans (hsame slot),
        List.isChain_append.mpr ⟨hchain, List.isChain_singleton _, ?_⟩, ?_⟩
      · intro tick htick
        rcases List.mem_append.mp htick with hold | hnew
        · exact hcalls tick hold
        · rw [List.mem_singleton.mp hnew]
          exact (roundRobinCall_iff hrep').mpr hcurrent
      · intro x hx y hy
        rw [hend] at hx
        obtain rfl := Option.some.inj hx
        obtain rfl := Option.some.inj hy
        exact hfirst
      · exact List.getLast?_concat

theorem onStack_base (hrep : Represents k.core.table k.current threads) :
    k.OnStack (getKernelStackBaseFromSlot k.current) := by
  have hlt := (current_lt hrep).1
  refine ⟨?_, slotOfEsp_base hlt⟩
  simp only [maxProcesses] at hlt
  simp only [getKernelStackBaseFromSlot, kernelPageEnd, kernelStackSize]
  omega

/-- Ticks from a table in which the last slot runs get to that slot. -/
theorem ticks_reach_last (hrep : Represents k.core.table k.current threads)
    (hlast : k.IsRunning (maxProcesses - 1)) :
    ∃ ticks final, Execution (tickStep layout) k ticks final ∧
      Represents final.core.table final.current threads ∧
      final.current = maxProcesses - 1 := by
  induction hn : maxProcesses - 1 - k.current using Nat.strong_induction_on
    generalizing k with
  | _ n ih =>
      by_cases hcurrent : k.current = maxProcesses - 1
      · exact ⟨[], k, .nil, hrep, hcurrent⟩
      · have hlt := (current_lt hrep).1
        obtain ⟨next, answer, hstep, hfirst, hrep', hsame⟩ :=
          @tick_spec layout k threads hrep hcurrent _ 0 (onStack_base hrep)
        obtain ⟨d, hd, -, hplace, -, hnone⟩ := hfirst
        simp only [maxProcesses] at *
        -- the last slot is ahead, so the tick goes no further than that
        have hle : d ≤ 5 - k.current := by
          by_contra hgt
          have hbefore := hnone (5 - k.current) (by omega) (by omega)
          rw [show (k.current + (5 - k.current)) % 6 = 5 by omega] at hbefore
          exact hbefore hlast
        obtain ⟨ticks, final, hexec, hfinal⟩ :=
          ih (5 - next.current) (by omega) hrep' ((hsame 5).mpr hlast) rfl
        exact ⟨_, final, hexec.cons hstep, hfinal⟩

theorem tick_last (hrep : Represents k.core.table k.current threads)
    (hcurrent : k.current = maxProcesses - 1) :
    ∃ event next answer, tickStep layout k event = some (next, answer) := by
  obtain ⟨examined, found, hscan⟩ := schedulerScan_last hrep hcurrent
  have hsome : (tickStep layout k
      (getKernelStackBaseFromSlot k.current, 0)).isSome := by
    rw [tickStep, if_pos (onStack_base hrep), scheduler, hscan]
    rfl
  obtain ⟨⟨next, answer⟩, hstep⟩ := Option.isSome_iff_exists.mp hsome
  exact ⟨_, next, answer, hstep⟩

end Ticks

end PsychOS
