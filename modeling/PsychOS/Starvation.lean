/-
Which processes the timer forgets.  A scan that starts in the last slot passes
over the first one, and no other scan gets past a last slot that can run; so
while it can, the process in the first slot gets no turn.
-/
import PsychOS.Scheduler

namespace PsychOS

/-- Wherever ticks lead, as many more as there are terminals include one that
switches to the slot. -/
def ServedByTicks (layout : Layout) (k : Kernel) (slot : Nat) : Prop :=
  ∀ ticks middle more final, Execution (tickStep layout) k ticks middle →
    Execution (tickStep layout) middle more final →
    more.length = numTerminals →
      slot ∈ more.map fun tick => tick.after.current

/-- The slots 1 to 3 are what a scan from the last slot gets to see of the
table. -/
def PassesFromLast (running : Nat → Prop) (next : Nat) : Prop :=
  (next = maxProcesses - 1 ∧ ∀ slot, 1 ≤ slot → slot ≤ 3 → ¬ running slot) ∨
    (1 ≤ next ∧ next ≤ 3 ∧ running next ∧
      ∀ slot, 1 ≤ slot → slot < next → ¬ running slot)

/-- What a tick makes of the current slot. -/
def PassesTo (running : Nat → Prop) (slot next : Nat) : Prop :=
  if slot = maxProcesses - 1 then PassesFromLast running next
  else FirstAfter maxProcesses running slot next

section Order

variable {running : Nat → Prop} {slot next : Nat}

/-- No tick gets past a last slot that can run. -/
theorem PassesTo.ne_zero (hpasses : PassesTo running slot next)
    (hlast : running (maxProcesses - 1)) (hslot : slot < maxProcesses) :
    next ≠ 0 := by
  rw [PassesTo] at hpasses
  split at hpasses
  · rcases hpasses with ⟨rfl, -⟩ | ⟨hpos, -⟩
    · decide
    · exact Nat.ne_of_gt hpos
  · rename_i hbefore
    obtain ⟨d, hd, -, rfl, -, hnone⟩ := hpasses
    simp only [maxProcesses] at hslot hbefore hlast hnone ⊢
    -- the last slot is ahead, so the tick goes no further than that
    have hle : d ≤ 5 - slot := by
      by_contra hgt
      have hskipped := hnone (5 - slot) (by omega) (by omega)
      rw [show (slot + (5 - slot)) % 6 = 5 by omega] at hskipped
      exact hskipped hlast
    omega

/-- With the first slot idle a scan from the last one goes round as well. -/
theorem PassesFromLast.firstAfter (hpasses : PassesFromLast running next)
    (hfirst : ¬ running 0)
    (hsome : ∃ slot, 1 ≤ slot ∧ slot ≤ 3 ∧ running slot) :
    FirstAfter maxProcesses running (maxProcesses - 1) next := by
  rcases hpasses with ⟨-, hnone⟩ | ⟨hpos, hle, hrunning, hearlier⟩
  · obtain ⟨slot, hlo, hhi, hslot⟩ := hsome
    exact absurd hslot (hnone slot hlo hhi)
  · refine ⟨next + 1, Nat.succ_pos next, ?_, ?_, hrunning, ?_⟩
    · simp only [maxProcesses]
      omega
    · simp only [maxProcesses]
      omega
    · intro d hd hlt
      obtain ⟨e, rfl⟩ := Nat.exists_eq_add_of_lt hd
      have hplace : (maxProcesses - 1 + (0 + e + 1)) % maxProcesses = e := by
        simp only [maxProcesses]
        omega
      rw [hplace]
      cases e with
      | zero => exact hfirst
      | succ e => exact hearlier (e + 1) (Nat.succ_pos e) (by omega)

end Order

section Ticks

variable {layout : Layout} {k next : Kernel} {threads : ProcessThreads}
  {event : Nat × Nat} {answer : Outcome}

/-- A tick whose scan settles on a process switches to it. -/
theorem tick_switches (hrep : Represents k.core.table k.current threads)
    {examined : List Nat} {target : Nat}
    (hscan : schedulerScan k = some (examined, some target))
    (hlt : target < maxProcesses) (hrunning : k.IsRunning target)
    (hstep : tickStep layout k event = some (next, answer)) :
    next.current = target ∧
      Represents next.core.table next.current threads ∧
      ∀ slot, next.IsRunning slot ↔ k.IsRunning slot := by
  obtain ⟨esp, ebp⟩ := event
  obtain ⟨hstack, hstep⟩ := Option.ite_none_right_eq_some.mp hstep
  rw [scheduler, hscan, Option.map_some, Option.some.injEq] at hstep
  obtain ⟨terminal, htop⟩ := hrep.top_of_running hlt hrunning.1 hrunning.2
  have hisRunning :=
    @contextSwitch_isRunning layout k k.current target esp ebp
  have hcore := @contextSwitch_core layout k k.current target esp ebp
  have hswitch : contextSwitch layout k k.current target esp ebp =
      (next, answer) := hstep
  rw [hswitch] at hisRunning hcore
  have hnew : next.current = target := by
    rw [← core_current next, hcore]
    exact contextSwitch_current hrep hstack.2 htop
  refine ⟨hnew, ?_, hisRunning⟩
  rw [← core_current next, hcore]
  exact represents_switch hrep hstack.2 hlt hrunning.1 hrunning.2

theorem scan_from_last (hrep : Represents k.core.table k.current threads)
    (hcurrent : k.current = maxProcesses - 1)
    (hbelow : ¬ k.IsRunning maxProcesses) :
    ∃ examined found, schedulerScan k = some (examined, found) ∧
      PassesFromLast k.IsRunning (found.getD (maxProcesses - 1)) ∧
      ∀ target, found = some target →
        target < maxProcesses ∧ k.IsRunning target := by
  have hslotNum : k.currentPcb.slotNum = maxProcesses - 1 :=
    (hrep.slotNum k.current (current_lt hrep).1).trans hcurrent
  have hscan : schedulerScan k = schedulerLoop k.pcb 4 7 6 := by
    rw [schedulerScan, hslotNum]
    rfl
  obtain ⟨examined, found, hloop, -, hfound, hnone⟩ :=
    @schedulerLoop_spec k 4 3 6 1 (by decide) (by decide) rfl (by decide)
  have hplace : ∀ d < 3, (1 + d) % maxProcesses = 1 + d := by decide
  refine ⟨6 :: examined, found, ?_, ?_, ?_⟩
  · rw [hscan, schedulerLoop, if_neg (by decide)]
    refine (if_neg hbelow).trans ?_
    rw [show (6 + 1) % maxProcesses = 1 from rfl, hloop]
    rfl
  · cases found with
    | none =>
        refine Or.inl ⟨rfl, ?_⟩
        intro slot hlo hhi
        obtain ⟨d, rfl⟩ := Nat.exists_eq_add_of_le hlo
        have hnot := hnone rfl d (by omega)
        rwa [hplace d (by omega)] at hnot
    | some target =>
        obtain ⟨d, hd, htarget, hrunning, hearlier⟩ := hfound target rfl
        obtain rfl : target = 1 + d := htarget.trans (hplace d hd)
        refine Or.inr ⟨Nat.le_add_right 1 d, ?_, hrunning, ?_⟩
        · show 1 + d ≤ 3
          omega
        · intro slot hlo hlt
          obtain ⟨e, rfl⟩ := Nat.exists_eq_add_of_le hlo
          have hbefore : e < d := Nat.lt_of_add_lt_add_left hlt
          have hnot := hearlier e hbefore
          rwa [hplace e (Nat.lt_trans hbefore hd)] at hnot
  · intro target htarget
    obtain ⟨d, -, rfl, hrunning, -⟩ := hfound target htarget
    exact ⟨Nat.mod_lt _ (by decide), hrunning⟩

/-- Every tick, from the last slot as from any other. -/
theorem tick_passes (hrep : Represents k.core.table k.current threads)
    (hbelow : ¬ k.IsRunning maxProcesses)
    (hstep : tickStep layout k event = some (next, answer)) :
    PassesTo k.IsRunning k.current next.current ∧
      Represents next.core.table next.current threads ∧
      ∀ slot, next.IsRunning slot ↔ k.IsRunning slot := by
  unfold PassesTo
  by_cases hcurrent : k.current = maxProcesses - 1
  · rw [if_pos hcurrent]
    obtain ⟨examined, found, hscan, hpasses, htarget⟩ :=
      scan_from_last hrep hcurrent hbelow
    cases found with
    | none =>
        obtain ⟨esp, ebp⟩ := event
        obtain ⟨-, hstep⟩ := Option.ite_none_right_eq_some.mp hstep
        rw [scheduler, hscan] at hstep
        obtain ⟨rfl, -⟩ := Prod.mk.inj (Option.some.inj hstep)
        rw [hcurrent]
        exact ⟨hpasses, hcurrent ▸ hrep, fun _ => Iff.rfl⟩
    | some target =>
        obtain ⟨hlt, hrunning⟩ := htarget target rfl
        obtain ⟨hnext, hrest⟩ :=
          tick_switches hrep hscan hlt hrunning hstep
        refine ⟨?_, hrest⟩
        rw [hnext]
        exact hpasses
  · rw [if_neg hcurrent]
    obtain ⟨examined, target, hscan, -, hlt, hfirst⟩ :=
      schedulerScan_spec hrep hcurrent
    obtain ⟨hnext, hrest⟩ := tick_switches hrep hscan hlt
      hfirst.choose_spec.2.2.2.1 hstep
    refine ⟨?_, hrest⟩
    rw [hnext]
    exact hfirst

/-- Any number of ticks. -/
theorem ticks_pass (hrep : Represents k.core.table k.current threads)
    (hbelow : ¬ k.IsRunning maxProcesses)
    {ticks : List (Transition Kernel (Nat × Nat) Outcome)} {final : Kernel}
    (hexec : Execution (tickStep layout) k ticks final) :
    Represents final.core.table final.current threads ∧
      (∀ slot, final.IsRunning slot ↔ k.IsRunning slot) ∧
      (k.current :: ticks.map fun tick => tick.after.current).IsChain
        (fun slot next => slot < maxProcesses ∧ k.IsRunning slot ∧
          PassesTo k.IsRunning slot next) ∧
      (k.current :: ticks.map fun tick => tick.after.current).getLast? =
        some final.current := by
  induction hexec with
  | nil => exact ⟨hrep, fun _ => Iff.rfl, List.isChain_singleton _, rfl⟩
  | @concat earlier state next event answer _ hstep ih =>
      obtain ⟨hrep', hsame, hchain, hend⟩ := ih
      have hmarked : state.IsRunning = k.IsRunning :=
        funext fun slot => propext (hsame slot)
      have hstate := current_lt hrep'
      obtain ⟨hpasses, hrepNext, hsameNext⟩ :=
        tick_passes hrep' (mt (hsame _).mp hbelow) hstep
      rw [hmarked] at hpasses hstate
      rw [List.map_append, ← List.cons_append]
      refine ⟨hrepNext, fun slot => (hsameNext slot).trans (hsame slot),
        List.isChain_append.mpr ⟨hchain, List.isChain_singleton _, ?_⟩,
        List.getLast?_concat⟩
      intro x hx y hy
      rw [hend] at hx
      obtain rfl := Option.some.inj hx
      obtain rfl := Option.some.inj hy
      exact ⟨hstate.1, hstate.2, hpasses⟩

/-- There is always another tick. -/
theorem exists_tick (hrep : Represents k.core.table k.current threads)
    (hbelow : ¬ k.IsRunning maxProcesses) :
    ∃ event next answer, tickStep layout k event = some (next, answer) := by
  have hscan : ∃ result, schedulerScan k = some result := by
    by_cases hcurrent : k.current = maxProcesses - 1
    · obtain ⟨examined, found, hscan, -⟩ :=
        scan_from_last hrep hcurrent hbelow
      exact ⟨_, hscan⟩
    · obtain ⟨examined, target, hscan, -⟩ := schedulerScan_spec hrep hcurrent
      exact ⟨_, hscan⟩
  obtain ⟨result, hscan⟩ := hscan
  refine ⟨(getKernelStackBaseFromSlot k.current, 0), ?_⟩
  rw [tickStep, if_pos (onStack_base hrep), scheduler, hscan, Option.map_some]
  exact ⟨_, _, rfl⟩

theorem exists_ticks (hrep : Represents k.core.table k.current threads)
    (hbelow : ¬ k.IsRunning maxProcesses) (count : Nat) :
    ∃ ticks final, Execution (tickStep layout) k ticks final ∧
      ticks.length = count := by
  induction count with
  | zero => exact ⟨[], k, .nil, rfl⟩
  | succ count ih =>
      obtain ⟨ticks, final, hexec, hlength⟩ := ih
      obtain ⟨hrep', hsame, -⟩ := ticks_pass hrep hbelow hexec
      obtain ⟨event, next, answer, hstep⟩ :=
        @exists_tick layout final threads hrep' (mt (hsame _).mp hbelow)
      refine ⟨_, next, hexec.concat hstep, ?_⟩
      rw [List.length_append, hlength]
      rfl

/-- What stands behind the head of a chain has something related before it. -/
theorem exists_related_before {R : Nat → Nat → Prop} {a : Nat} {l : List Nat}
    (hchain : (a :: l).IsChain R) : ∀ y ∈ l, ∃ x, R x y := by
  induction l generalizing a with
  | nil => exact fun y hy => absurd hy List.not_mem_nil
  | cons b rest ih =>
      obtain ⟨hhead, hrest⟩ := List.isChain_cons_cons.mp hchain
      intro y hy
      rcases List.mem_cons.mp hy with rfl | hlater
      · exact ⟨a, hhead⟩
      · exact ih hrest y hlater

/-- While the last slot can run, no tick switches to the first. -/
theorem ticks_skip_first (hrep : Represents k.core.table k.current threads)
    (hbelow : ¬ k.IsRunning maxProcesses)
    (hlast : k.IsRunning (maxProcesses - 1))
    {ticks : List (Transition Kernel (Nat × Nat) Outcome)} {final : Kernel}
    (hexec : Execution (tickStep layout) k ticks final) :
    ∀ slot ∈ ticks.map fun tick => tick.after.current, slot ≠ 0 := by
  obtain ⟨-, -, hchain, -⟩ := ticks_pass hrep hbelow hexec
  intro slot hslot
  obtain ⟨previous, hlt, -, hpasses⟩ := exists_related_before hchain slot hslot
  exact hpasses.ne_zero hlast hlt

/-- Otherwise every tick goes to the next process that can run. -/
theorem tick_goes_round (hrep : Represents k.core.table k.current threads)
    (hsome : ¬ (k.IsRunning 0 ∧ k.IsRunning (maxProcesses - 1)))
    {slot target : Nat} (hslot : slot < maxProcesses)
    (hrunning : k.IsRunning slot)
    (hpasses : PassesTo k.IsRunning slot target) :
    FirstAfter maxProcesses k.IsRunning slot target := by
  unfold PassesTo at hpasses
  split at hpasses
  · rename_i hlast
    subst hlast
    have hfirst : ¬ k.IsRunning 0 := fun hzero => hsome ⟨hzero, hrunning⟩
    apply hpasses.firstAfter hfirst
    by_contra hnone
    have hsub : (Finset.range maxProcesses).filter k.IsRunning ⊆ {4, 5} := by
      intro other hother
      obtain ⟨hlt, hother⟩ := Finset.mem_filter.mp hother
      rw [Finset.mem_range, maxProcesses] at hlt
      rw [Finset.mem_insert, Finset.mem_singleton]
      by_contra hout
      rcases Nat.eq_zero_or_pos other with rfl | hpos
      · exact hfirst hother
      · exact hnone ⟨other, hpos, by omega, hother⟩
    have hcard := Finset.card_le_card hsub
    rw [hrep.running_card] at hcard
    exact absurd (hcard.trans Finset.card_le_two) (by decide)
  · exact hpasses

end Ticks

/-- Let nothing below the table pass for a process.  Then every process that
can run has its turn, in every lap of the ticks, exactly if the first and the
last slot do not both hold one; and while the last slot does, no number of
ticks ever leads to the first. -/
theorem ticks_serve_all_iff (img : Image) (layout : Layout) {start k : Kernel}
    {transitions : List (Transition Kernel KernelEvent Outcome)}
    (hboot : Booted img layout start)
    (hexec : Execution (kernelStep img layout) start transitions k)
    (hbelow : ¬ k.IsRunning maxProcesses) :
    ((∀ slot < maxProcesses, k.IsRunning slot →
        ServedByTicks layout k slot) ↔
      ¬ (k.IsRunning 0 ∧ k.IsRunning (maxProcesses - 1))) ∧
    (k.IsRunning (maxProcesses - 1) → ∀ ticks final,
      Execution (tickStep layout) k ticks final →
        ∀ tick ∈ ticks, tick.after.current ≠ 0) := by
  obtain ⟨threads, -, hrep⟩ := execution_represents hboot hexec
  refine ⟨⟨?_, ?_⟩, ?_⟩
  · rintro hserved ⟨hfirst, hlast⟩
    obtain ⟨ticks, final, hticks, hlength⟩ :=
      @exists_ticks layout k threads hrep hbelow numTerminals
    have hzero := hserved 0 (by decide) hfirst [] k ticks final .nil hticks
      hlength
    exact ticks_skip_first hrep hbelow hlast hticks 0 hzero rfl
  · intro hnot slot hslot hrunning ticks middle more final hticks hmore hlength
    obtain ⟨hrep', hsame, -⟩ := ticks_pass hrep hbelow hticks
    have hmarked : middle.IsRunning = k.IsRunning :=
      funext fun slot => propext (hsame slot)
    obtain ⟨-, -, hchain, -⟩ :=
      ticks_pass hrep' (mt (hsame _).mp hbelow) hmore
    rw [← hmarked] at hnot hrunning
    have hround : (middle.current ::
        more.map fun tick => tick.after.current).IsChain
          (FirstAfter maxProcesses middle.IsRunning) :=
      hchain.imp fun _ _ hstep =>
        tick_goes_round hrep' hnot hstep.1 hstep.2.1 hstep.2.2
    have hlap := stops_lap (current_lt hrep').1 hround (by
      rw [List.length_map, hlength, hrep'.running_card])
    exact (hlap.2 slot).mpr ⟨hslot, hrunning⟩
  · intro hlast ticks final hticks tick htick
    exact ticks_skip_first hrep hbelow hlast hticks _
      (List.mem_map_of_mem htick)

/-- The root programs alone are all served.  With programs nested up to the
last slot, the one in the first slot could run and never does. -/
theorem ticks_serve_all_sample :
    (∀ slot < maxProcesses, sampleKernel.IsRunning slot →
      ServedByTicks sampleLayout sampleKernel slot) ∧
    ∃ transitions k,
      Execution (kernelStep shellImage sampleLayout) sampleKernel transitions
        k ∧ transitions.map Transition.event = nestedShells ∧
      k.IsRunning 0 ∧ ∀ ticks final,
        Execution (tickStep sampleLayout) k ticks final →
          ∀ tick ∈ ticks, tick.after.current ≠ 0 := by
  have hroots := ticks_serve_all_iff shellImage sampleLayout
    sampleKernel_booted .nil (by decide +kernel)
  refine ⟨hroots.1.mpr (by decide +kernel), ?_⟩
  have hrun : (trace (kernelStep shellImage sampleLayout) sampleKernel
      nestedShells).map (fun result => decide (result.2.IsRunning 0 ∧
        result.2.IsRunning 5 ∧ ¬ result.2.IsRunning 6)) = some true := by
    decide +kernel
  obtain ⟨⟨transitions, k⟩, htrace, heq⟩ := Option.map_eq_some_iff.mp hrun
  obtain ⟨hfirst, hlast, hbelow⟩ := of_decide_eq_true heq
  obtain ⟨hexec, hevents⟩ := trace_execution htrace
  have hnested := ticks_serve_all_iff shellImage sampleLayout
    sampleKernel_booted hexec hbelow
  exact ⟨transitions, k, hexec, hevents, hfirst, hnested.2 hlast⟩

end PsychOS
