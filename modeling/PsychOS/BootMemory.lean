/-
Boot and the memory it finds.  `kernel_run_first_program` writes some fields of
the PCBs and leaves the others as they are, and nothing clears that memory
before.
-/
import PsychOS.Boot

namespace PsychOS

section Names

/-- A comparison looks at a string up to its terminator, and no further than
its limit. -/
theorem strncmpFrom_congr {s1 s2 other : Memory UInt8} {i count last : Nat}
    (hi : i ≤ last)
    (hsame : ∀ j ≤ last, j < i + count → s1 j = s2 j)
    (hend : last < i + count → s1 last = 0) :
    strncmpFrom s1 other i count = strncmpFrom s2 other i count := by
  induction count generalizing i with
  | zero => rfl
  | succ count ih =>
      rw [strncmpFrom, strncmpFrom, ← hsame i hi (by omega)]
      by_cases hstop : s1 i ≠ other i ∨ s1 i = 0
      · rw [if_pos hstop, if_pos hstop]
      · -- not stopped yet, so the terminator is still to come
        have hmore : i ≠ last := by
          rintro rfl
          exact hstop (Or.inr (hend (by omega)))
        rw [if_neg hstop, if_neg hstop]
        exact ih (by omega) (fun j hj hlt => hsame j hj (by omega))
          fun hlt => hend (by omega)

variable {img : Image} {command : List UInt8}

theorem nameField_end (command : List UInt8) :
    (nameField command)[lenName command]? = some 0 := by
  have hlength : (strncpy (cString command) (lenName command)).length =
      lenName command := strncpyFrom_length ..
  rw [nameField, List.getElem?_append_right (Nat.le_of_eq hlength), hlength,
    Nat.sub_self]
  rfl

theorem parseCommand_name (hfits : commandEnd command ≤ entrypointOffset)
    (pcb : Pcb) {j : Nat} {byte : UInt8}
    (hbyte : (nameField command)[j]? = some byte)
    (hlt : j < maxProgramNameLength) :
    (parseCommand command pcb).text j = byte := by
  obtain ⟨hj, rfl⟩ := List.getElem?_eq_some_iff.mp hbyte
  have hstored := pcb.text.storeList_getElem 0 hj
  rw [Nat.zero_add] at hstored
  rw [parseCommand_text hfits]
  exact (Memory.storeList_of_outside _ (Or.inl hlt)).trans hstored

/-- Whatever was in the PCB, the name is looked up with the same result. -/
theorem readDentryByName_parsed
    (hfits : commandEnd command ≤ entrypointOffset) (pcb other : Pcb) :
    img.readDentryByName (parseCommand command pcb).text =
      img.readDentryByName (parseCommand command other).text := by
  have hroom {j : Nat} (hlt : j < 0 + maxFileNameLength) :
      j < maxProgramNameLength :=
    Nat.lt_trans (Nat.lt_of_lt_of_eq hlt (Nat.zero_add _)) (by decide)
  have hcompare (name : Memory UInt8) :
      strncmp (parseCommand command pcb).text name maxFileNameLength =
        strncmp (parseCommand command other).text name
          maxFileNameLength := by
    apply strncmpFrom_congr (Nat.zero_le (lenName command))
    · intro j hj hlt
      have hname : j < (nameField command).length := by
        rw [nameField_length]
        omega
      have hbyte := List.getElem?_eq_getElem hname
      rw [parseCommand_name hfits pcb hbyte (hroom hlt),
        parseCommand_name hfits other hbyte (hroom hlt)]
    · intro hlt
      exact parseCommand_name hfits pcb (nameField_end command) (hroom hlt)
  simp only [Image.readDentryByName, hcompare]

theorem loadProgramIntoSlot_parsed
    (hfits : commandEnd command ≤ entrypointOffset) (pcb other : Pcb)
    (pages : Memory UInt8) (slot : Nat) :
    loadProgramIntoSlot img pages (parseCommand command pcb).text slot =
      loadProgramIntoSlot img pages (parseCommand command other).text
        slot := by
  have hread (nbytes : Nat) :
      img.readFileByName (parseCommand command pcb).text nbytes =
        img.readFileByName (parseCommand command other).text nbytes := by
    rw [Image.readFileByName, readDentryByName_parsed hfits pcb other,
      Image.readFileByName]
  simp only [loadProgramIntoSlot, hread]

end Names

/-- The PCBs after the first `n` root programs are set up, from what was in
memory. -/
structure RootsUpTo (command : List UInt8) (memory : Nat → Pcb) (n : Nat)
    (pcb : Nat → Pcb) : Prop where
  started : ∀ slot < n, ∃ entrypoint pid, pcb slot =
    rootPcb command (clearedPcb slot (memory slot)) slot entrypoint pid
  others : ∀ slot, n ≤ slot → slot < maxProcesses →
    pcb slot = clearedPcb slot (memory slot)

/-- What the kernel reads of a PCB before it writes it. -/
structure TablesAgree (pcb other : Nat → Pcb) : Prop where
  inUse : ∀ slot < maxProcesses, (pcb slot).inUse = (other slot).inUse
  status : ∀ slot < maxProcesses, (pcb slot).status = (other slot).status
  flags : ∀ slot < maxProcesses, ∀ fd < maxFileDescriptors,
    ((pcb slot).fa fd).inUse = ((other slot).fa fd).inUse
  rtcEnabled : ∀ slot < maxProcesses,
    (pcb slot).rtcEnabled = (other slot).rtcEnabled
  esp : ∀ slot, 0 < slot → slot < numTerminals →
    (pcb slot).esp = (other slot).esp

/-- What of that was in memory before and is left there. -/
structure LeftoversAgree (memory other : Nat → Pcb) : Prop where
  rootFlags : ∀ slot < numTerminals, ∀ fd, 2 ≤ fd → fd < maxFileDescriptors →
    ((memory slot).fa fd).inUse = ((other slot).fa fd).inUse
  freeFlags : ∀ slot, numTerminals ≤ slot → slot < maxProcesses →
    ∀ fd < maxFileDescriptors,
      ((memory slot).fa fd).inUse = ((other slot).fa fd).inUse
  rtcEnabled : ∀ slot < maxProcesses,
    (memory slot).rtcEnabled = (other slot).rtcEnabled
  esp : ∀ slot, 0 < slot → slot < numTerminals →
    (memory slot).esp = (other slot).esp

section Fields

variable {command : List UInt8} {memory pcb : Nat → Pcb} {n slot : Nat}

theorem RootsUpTo.used (hroots : RootsUpTo command memory n pcb)
    (hslot : slot < maxProcesses) :
    (pcb slot).inUse = decide (slot < n) ∧
      (pcb slot).status = if slot < n then .running else .none := by
  by_cases hstarted : slot < n
  · obtain ⟨entrypoint, pid, heq⟩ := hroots.started slot hstarted
    rw [heq, if_pos hstarted, decide_eq_true hstarted]
    exact ⟨rfl, rfl⟩
  · rw [hroots.others slot (Nat.le_of_not_lt hstarted) hslot,
      if_neg hstarted, decide_eq_false hstarted]
    exact ⟨rfl, rfl⟩

/-- Neither loop touches the clock and the saved registers, and of the
descriptors only the standard ones of a root program. -/
theorem RootsUpTo.kept (hfits : commandEnd command ≤ entrypointOffset)
    (hroots : RootsUpTo command memory n pcb) (hslot : slot < maxProcesses) :
    (pcb slot).rtcEnabled = (memory slot).rtcEnabled ∧
      (pcb slot).esp = (memory slot).esp ∧
      (pcb slot).fa = if slot < n then (openStdinAndStdout (memory slot)).fa
        else (memory slot).fa := by
  by_cases hstarted : slot < n
  · obtain ⟨entrypoint, pid, heq⟩ := hroots.started slot hstarted
    rw [heq, if_pos hstarted, rootPcb, parseCommand_text hfits]
    exact ⟨rfl, rfl, rfl⟩
  · rw [hroots.others slot (Nat.le_of_not_lt hstarted) hslot,
      if_neg hstarted]
    exact ⟨rfl, rfl, rfl⟩

theorem openStdinAndStdout_inUse (pcb : Pcb) (fd : Nat) :
    ((openStdinAndStdout pcb).fa fd).inUse =
      if fd < 2 then true else (pcb.fa fd).inUse := by
  by_cases hstandard : fd < 2
  · rw [if_pos hstandard]
    rcases (by omega : fd = 0 ∨ fd = 1) with rfl | rfl <;> rfl
  · rw [if_neg hstandard, openStdinAndStdout_other pcb (by omega)]

theorem RootsUpTo.flag (hfits : commandEnd command ≤ entrypointOffset)
    (hroots : RootsUpTo command memory n pcb) (hslot : slot < maxProcesses)
    (fd : Nat) :
    ((pcb slot).fa fd).inUse =
      if slot < n ∧ fd < 2 then true else ((memory slot).fa fd).inUse := by
  rw [(hroots.kept hfits hslot).2.2]
  by_cases hstarted : slot < n
  · rw [if_pos hstarted, openStdinAndStdout_inUse]
    simp only [hstarted, true_and]
  · rw [if_neg hstarted, if_neg fun hboth => hstarted hboth.1]

/-- The PCBs agree after boot exactly if the leftovers did before. -/
theorem RootsUpTo.agree_iff (hfits : commandEnd command ≤ entrypointOffset)
    {other after : Nat → Pcb}
    (hroots : RootsUpTo command memory numTerminals pcb)
    (hother : RootsUpTo command other numTerminals after) :
    TablesAgree pcb after ↔ LeftoversAgree memory other := by
  have hrtc {slot : Nat} (hslot : slot < maxProcesses) :
      (pcb slot).rtcEnabled = (after slot).rtcEnabled ↔
        (memory slot).rtcEnabled = (other slot).rtcEnabled := by
    rw [(hroots.kept hfits hslot).1, (hother.kept hfits hslot).1]
  have hesp {slot : Nat} (hslot : slot < numTerminals) :
      (pcb slot).esp = (after slot).esp ↔
        (memory slot).esp = (other slot).esp := by
    have hlt : slot < maxProcesses := Nat.lt_trans hslot (by decide)
    rw [(hroots.kept hfits hlt).2.1, (hother.kept hfits hlt).2.1]
  have hflag {slot : Nat} (hslot : slot < maxProcesses) (fd : Nat)
      (hleft : ¬ (slot < numTerminals ∧ fd < 2)) :
      ((pcb slot).fa fd).inUse = ((after slot).fa fd).inUse ↔
        ((memory slot).fa fd).inUse = ((other slot).fa fd).inUse := by
    rw [hroots.flag hfits hslot, hother.flag hfits hslot, if_neg hleft,
      if_neg hleft]
  constructor
  · intro hagree
    refine ⟨?_, ?_, ?_, ?_⟩
    · intro slot hslot fd hlo hhi
      have hlt : slot < maxProcesses := Nat.lt_trans hslot (by decide)
      exact (hflag hlt fd (by omega)).mp (hagree.flags slot hlt fd hhi)
    · intro slot hlo hhi fd hfd
      exact (hflag hhi fd (by omega)).mp (hagree.flags slot hhi fd hfd)
    · exact fun slot hslot =>
        (hrtc hslot).mp (hagree.rtcEnabled slot hslot)
    · exact fun slot hlo hhi => (hesp hhi).mp (hagree.esp slot hlo hhi)
  · intro hagree
    refine ⟨?_, ?_, ?_, ?_, ?_⟩
    · exact fun slot hslot =>
        (hroots.used hslot).1.trans (hother.used hslot).1.symm
    · exact fun slot hslot =>
        (hroots.used hslot).2.trans (hother.used hslot).2.symm
    · intro slot hslot fd hfd
      by_cases hleft : slot < numTerminals ∧ fd < 2
      · rw [hroots.flag hfits hslot, hother.flag hfits hslot, if_pos hleft,
          if_pos hleft]
      · rw [hflag hslot fd hleft]
        by_cases hroot : slot < numTerminals
        · exact hagree.rootFlags slot hroot fd (by omega) hfd
        · exact hagree.freeFlags slot (Nat.le_of_not_lt hroot) hslot fd hfd
    · exact fun slot hslot =>
        (hrtc hslot).mpr (hagree.rtcEnabled slot hslot)
    · exact fun slot hlo hhi => (hesp hhi).mpr (hagree.esp slot hlo hhi)

end Fields

section Roots

variable {img : Image} {layout : Layout} {command : List UInt8}
  {junk : Nat → Junk} {k next : Kernel} {memory : Nat → Pcb} {n : Nat}

theorem startRoot_roots (hfits : commandEnd command ≤ entrypointOffset)
    (hroots : RootsUpTo command memory n k.pcb) (hn : n < maxProcesses)
    (hstart : startRoot img layout command junk k n = some next) :
    RootsUpTo command memory (n + 1) next.pcb := by
  rw [startRoot_eq hfits] at hstart
  obtain ⟨-, heq⟩ := Option.ite_none_left_eq_some.mp hstart
  rw [← Option.some.inj heq, hroots.others n (Nat.le_refl n) hn]
  constructor
  · intro slot hslot
    by_cases hlast : slot = n
    · rw [hlast]
      exact ⟨_, _, Function.update_self ..⟩
    · obtain ⟨entrypoint, pid, hold⟩ := hroots.started slot (by omega)
      exact ⟨entrypoint, pid, (Function.update_of_ne hlast ..).trans hold⟩
  · intro slot hlo hhi
    exact (Function.update_of_ne (by omega) ..).trans
      (hroots.others slot (by omega) hhi)

/-- The same turn with other PCBs in memory. -/
theorem startRoot_other (hfits : commandEnd command ≤ entrypointOffset)
    {i : Nat} {pcb : Nat → Pcb}
    (hslotNum : (pcb i).slotNum = (k.pcb i).slotNum)
    (hstart : startRoot img layout command junk k i = some next) :
    ∃ after, startRoot img layout command junk { k with pcb := pcb } i =
      some { next with pcb := after } := by
  rw [startRoot_eq hfits] at hstart
  obtain ⟨hentry, heq⟩ := Option.ite_none_left_eq_some.mp hstart
  rw [startRoot_eq hfits]
  dsimp only at hentry ⊢
  rw [loadProgramIntoSlot_parsed hfits (pcb i) (k.pcb i), hslotNum,
    if_neg hentry, ← Option.some.inj heq]
  exact ⟨_, rfl⟩

/-- The second loop runs the same way whatever was in the PCBs. -/
theorem startRoots_other (hfits : commandEnd command ≤ entrypointOffset)
    (hloop : (List.range n).foldlM (startRoot img layout command junk) k =
      some next) (hn : n ≤ maxProcesses)
    (hroots : RootsUpTo command memory 0 k.pcb) {other pcb : Nat → Pcb}
    (hother : RootsUpTo command other 0 pcb) :
    RootsUpTo command memory n next.pcb ∧ ∃ after,
      (List.range n).foldlM (startRoot img layout command junk)
        { k with pcb := pcb } = some { next with pcb := after } ∧
      RootsUpTo command other n after := by
  induction n generalizing next with
  | zero =>
      obtain rfl : k = next := Option.some.inj hloop
      exact ⟨hroots, pcb, rfl, hother⟩
  | succ n ih =>
      rw [List.range_succ, List.foldlM_append] at hloop
      obtain ⟨middle, hmiddle, hlast⟩ := Option.bind_eq_some_iff.mp hloop
      have hstart : startRoot img layout command junk middle n =
          some next := by simpa using hlast
      obtain ⟨hbefore, between, hbetween, hsame⟩ := ih hmiddle (by omega)
      have hslotNum : (between n).slotNum = (middle.pcb n).slotNum := by
        rw [hsame.others n (Nat.le_refl n) hn,
          hbefore.others n (Nat.le_refl n) hn]
        rfl
      obtain ⟨after, hafter⟩ := startRoot_other hfits hslotNum hstart
      refine ⟨startRoot_roots hfits hbefore hn hstart, after, ?_,
        startRoot_roots hfits hsame hn hafter⟩
      rw [List.range_succ, List.foldlM_append, hbetween]
      simpa using hafter

theorem cleared_roots (command : List UInt8) (memory : Kernel) :
    RootsUpTo command memory.pcb 0
      ((List.range maxProcesses).foldl clearPcb memory).pcb where
  started := fun slot hnone => absurd hnone (Nat.not_lt_zero slot)
  others := by
    intro slot _ hslot
    rw [clearPcbs_eq]
    exact if_pos hslot

/-- `kernel_run_first_program` starts the root programs with any PCBs in memory
if it does with some. -/
theorem kernelRunFirstProgram_other
    (hfits : commandEnd command ≤ entrypointOffset) {memory : Kernel}
    (hboot : kernelRunFirstProgram img layout command junk memory = some k)
    (other : Nat → Pcb) :
    RootsUpTo command memory.pcb numTerminals k.pcb ∧ ∃ after,
      kernelRunFirstProgram img layout command junk
        { memory with pcb := other } = some after ∧
      RootsUpTo command other numTerminals after.pcb := by
  unfold kernelRunFirstProgram at hboot ⊢
  dsimp only at hboot ⊢
  obtain ⟨last, hloop, rfl⟩ := Option.map_eq_some_iff.mp hboot
  have hroots := cleared_roots command memory
  have hother := cleared_roots command { memory with pcb := other }
  have hsame : (List.range maxProcesses).foldl clearPcb
      { memory with pcb := other } =
      { (List.range maxProcesses).foldl clearPcb memory with
        pcb := ((List.range maxProcesses).foldl clearPcb
          { memory with pcb := other }).pcb } := by
    rw [clearPcbs_eq, clearPcbs_eq]
  obtain ⟨hlast, after, hafter, hpcb⟩ :=
    startRoots_other hfits hloop (by decide) hroots hother
  rw [hsame]
  exact ⟨hlast, _, congrArg (Option.map _) hafter, hpcb⟩

end Roots

/-- Two boots that find different PCBs in memory leave the same tables exactly
if the fields that are never initialised were the same. -/
theorem boot_tables_agree_iff {img : Image} {layout : Layout}
    {command : List UInt8} {junk : Nat → Junk} {memory k : Kernel}
    (hfits : commandEnd command ≤ entrypointOffset)
    (hboot : kernelRunFirstProgram img layout command junk memory = some k)
    (other : Nat → Pcb) :
    ∃ after, kernelRunFirstProgram img layout command junk
        { memory with pcb := other } = some after ∧
      (TablesAgree k.pcb after.pcb ↔ LeftoversAgree memory.pcb other) := by
  obtain ⟨hroots, after, hafter, hother⟩ :=
    kernelRunFirstProgram_other hfits hboot other
  exact ⟨after, hafter, hroots.agree_iff hfits hother⟩

/-- A PCB as old memory may hold one. -/
def stalePcb : Pcb :=
  { Pcb.zeroed with
    esp := 4096, rtcEnabled := true, fa := fun _ => ⟨none, 0, 1, 0⟩ }

/-- Boot over memory that is zero but for old PCBs in it. -/
def staleBoot : Option Kernel :=
  kernelRunFirstProgram shellImage sampleLayout [115] (fun _ => Junk.zero)
    { Kernel.zeroed with pcb := fun _ => stalePcb }

theorem sampleKernel_agree_iff : ∃ after, staleBoot = some after ∧
    (TablesAgree sampleKernel.pcb after.pcb ↔
      LeftoversAgree Kernel.zeroed.pcb fun _ => stalePcb) :=
  boot_tables_agree_iff (by decide) sampleKernel_eq fun _ => stalePcb

/-- Old memory shows in descriptors, in the clock and in a root program that
has not run yet, which the first switch to it takes for one that has. -/
theorem stale_memory_survives_boot : ∃ after,
    kernelRunFirstProgram shellImage sampleLayout [115] (fun _ => Junk.zero)
      Kernel.zeroed = some sampleKernel ∧
    staleBoot = some after ∧ ¬ TablesAgree sampleKernel.pcb after.pcb ∧
    ((sampleKernel.pcb 3).fa 2).inUse = false ∧
    ((after.pcb 3).fa 2).inUse = true ∧
    (sampleKernel.pcb 0).rtcEnabled = false ∧
    (after.pcb 0).rtcEnabled = true ∧
    (contextSwitch sampleLayout sampleKernel 0 1 (sampleEsp 0) 0).2 =
      .entered 1 0x8040000 ∧
    (contextSwitch sampleLayout after 0 1 (sampleEsp 0) 0).2 =
      .resumed 4096 0 := by
  have hstale : staleBoot.map (fun k => (((k.pcb 3).fa 2).inUse,
      (k.pcb 0).rtcEnabled,
      (contextSwitch sampleLayout k 0 1 (sampleEsp 0) 0).2)) =
        some (true, true, .resumed 4096 0) := by decide +kernel
  have hclock : (sampleKernel.pcb 0).rtcEnabled = false := by decide +kernel
  obtain ⟨after, hafter, hfields⟩ := Option.map_eq_some_iff.mp hstale
  simp only [Prod.mk.injEq] at hfields
  obtain ⟨hflag, hon, hresumed⟩ := hfields
  refine ⟨after, sampleKernel_eq, hafter, fun hagree => ?_,
    by decide +kernel, hflag, hclock, hon, by decide +kernel, hresumed⟩
  have hsame := hagree.rtcEnabled 0 (by decide)
  rw [hclock, hon] at hsame
  cases hsame

end PsychOS
