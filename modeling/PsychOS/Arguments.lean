/-
The arguments of a program.  The command is cut at its first space when the
program starts, the second part waits in the PCB, and `getargs` hands it over.
The slot may have held another program's longer arguments before.
-/
import Mathlib.Data.List.TakeWhile
import PsychOS.UserPointers
import PsychOS.WholeSystem

namespace PsychOS

/-- The part of a command before its first space. -/
def commandName (command : List UInt8) : List UInt8 :=
  command.takeWhile (· ≠ 32)

/-- The part behind its first space. -/
def commandArgs (command : List UInt8) : List UInt8 :=
  (command.dropWhile (· ≠ 32)).drop 1

section Parsing

variable {command : List UInt8}

theorem command_of_no_space (hnone : 32 ∉ command) :
    commandName command = command ∧ commandArgs command = [] := by
  have hother : ∀ ch ∈ command, decide (ch ≠ 32) = true := by
    intro ch hch
    exact decide_eq_true fun hspace => hnone (hspace ▸ hch)
  rw [commandName, commandArgs, List.takeWhile_eq_self_iff.mpr hother,
    List.dropWhile_eq_nil_iff.mpr hother]
  exact ⟨rfl, rfl⟩

theorem command_of_space (hsome : 32 ∈ command) :
    command = commandName command ++ 32 :: commandArgs command := by
  have hsplit := @List.takeWhile_append_dropWhile UInt8 (· ≠ 32) command
  have hhead := List.head?_dropWhile_not (· ≠ (32 : UInt8)) command
  rw [commandName, commandArgs]
  cases hrest : command.dropWhile (· ≠ 32) with
  | nil => simpa using List.dropWhile_eq_nil_iff.mp hrest 32 hsome
  | cons ch rest =>
      rw [hrest] at hsplit hhead
      have hspace : ch = 32 := by simpa using hhead
      subst hspace
      exact hsplit.symm

theorem space_not_mem_commandName (command : List UInt8) :
    32 ∉ commandName command := by
  intro hmem
  simpa using List.mem_takeWhile_imp hmem

/-- Without terminators inside, the scan stops at a space only. -/
theorem lenName_eq (hnul : 0 ∉ command) :
    lenName command = (commandName command).length := by
  rw [lenName, commandName]
  induction command with
  | nil => rfl
  | cons ch rest ih =>
      obtain ⟨hhead, hrest⟩ := not_or.mp (mt List.mem_cons.mpr hnul)
      by_cases hspace : ch = 32
      · simp [hspace]
      · rw [List.takeWhile_cons_of_pos (by simp [hspace, Ne.symm hhead]),
          List.takeWhile_cons_of_pos (by simp [hspace]), List.length_cons,
          List.length_cons, ih hrest]

theorem takeWhile_nonzero {bytes : List UInt8} (hnul : 0 ∉ bytes) :
    bytes.takeWhile (· ≠ 0) = bytes := by
  apply List.takeWhile_eq_self_iff.mpr
  intro byte hbyte
  exact decide_eq_true fun hzero => hnul (hzero ▸ hbyte)

theorem drop_lenName (hnul : 0 ∉ command) :
    command.drop (lenName command + 1) = commandArgs command := by
  rw [lenName_eq hnul, commandArgs, ← List.drop_drop]
  congr 1
  rw [commandName]
  nth_rewrite 2 [← @List.takeWhile_append_dropWhile UInt8 (· ≠ 32) command]
  exact List.drop_left

theorem zero_not_mem_commandArgs (hnul : 0 ∉ command) :
    0 ∉ commandArgs command := by
  rw [← drop_lenName hnul]
  exact fun hmem => hnul (List.mem_of_mem_drop hmem)

theorem lenArgs_eq (hnul : 0 ∉ command) :
    lenArgs command = (commandArgs command).length := by
  have hargs : 0 ∉ commandArgs command := zero_not_mem_commandArgs hnul
  rw [lenArgs, drop_lenName hnul, lenName_eq hnul]
  by_cases hspace : 32 ∈ command
  · have hch : cString command (commandName command).length = 32 := by
      have hsplit := command_of_space hspace
      generalize commandName command = name at *
      rw [hsplit]
      simp [cString]
    rw [if_pos hch, strlen, takeWhile_nonzero hargs]
  · obtain ⟨hname, hnone⟩ := command_of_no_space hspace
    rw [hname, hnone]
    simp [cString]

/-- A string without terminators is copied as it is. -/
theorem strncpy_cString {bytes : List UInt8} (hnul : 0 ∉ bytes) {count : Nat}
    (hcount : count ≤ bytes.length) :
    strncpy (cString bytes) count = bytes.take count := by
  have hpart : 0 ∉ bytes.take count :=
    fun hmem => hnul (List.mem_of_mem_take hmem)
  rw [strncpy, strncpyFrom_eq, load_cString bytes hcount, takeWhile_nonzero hpart,
    List.length_take_of_le hcount, Nat.sub_self, List.replicate_zero,
    List.append_nil]

theorem nameField_eq (hnul : 0 ∉ command) :
    nameField command = commandName command ++ [0] := by
  have hle : lenName command ≤ command.length :=
    (List.takeWhile_sublist _).length_le
  rw [nameField, strncpy_cString hnul hle, lenName_eq hnul, commandName,
    ← List.prefix_iff_eq_take.mp (List.takeWhile_prefix _)]

theorem argsField_eq (hnul : 0 ∉ command) :
    argsField command = commandArgs command ++ [0] := by
  have hargs : 0 ∉ commandArgs command := zero_not_mem_commandArgs hnul
  rw [argsField, drop_lenName hnul, lenArgs_eq hnul,
    strncpy_cString hargs (Nat.le_refl _), List.take_length]

/-- Name and arguments are both there to be read, whatever the memory held
before. -/
theorem parseCommand_fields (hlength : command.length ≤ 127)
    (hnul : 0 ∉ command) (pcb : Pcb) :
    HoldsString (parseCommand command pcb).text 0 (commandName command) ∧
      HoldsString (parseCommand command pcb).text maxProgramNameLength
        (commandArgs command) := by
  rw [parseCommand_text (commandEnd_le_of_length hlength), nameField_eq hnul,
    argsField_eq hnul]
  refine ⟨?_, holdsString_storeList ..⟩
  have hname : (commandName command).length ≤ command.length :=
    (List.takeWhile_sublist _).length_le
  -- the arguments are stored behind the 128 bytes of the name
  have hbefore (i : Nat) (hi : i < (commandName command).length + 1) :
      0 + i < maxProgramNameLength := by
    simp only [maxProgramNameLength]
    omega
  rw [HoldsString, Memory.load_congr fun i hi =>
    Memory.storeList_of_outside _ (Or.inl (hbefore i hi))]
  exact holdsString_storeList ..

end Parsing

section Getargs

variable {pcb : Pcb} {args : List UInt8}

theorem bytes_load_args {count : Nat} (hcount : count ≤ maxArgsLength) :
    pcb.bytes.load maxProgramNameLength count =
      pcb.text.load maxProgramNameLength count := by
  apply Memory.load_congr
  intro i hi
  exact if_pos (Nat.add_lt_add_left (Nat.lt_of_lt_of_le hi hcount) _)

theorem inPageBounds_of_inProcessPage {buf : Nat} {nbytes : Int}
    (hbuf : InProcessPage buf) (hnonneg : 0 ≤ nbytes)
    (hlt : nbytes < 2 ^ 31) : inPageBounds buf nbytes = true := by
  obtain ⟨hlo, hhi⟩ := hbuf
  simp only [processVirtPageStart, processPageSize] at hlo hhi
  rw [inPageBounds, toUint32_of_nonneg hnonneg (by omega), decide_eq_true_iff]
  simp only [processVirtPageStart, processPageSize]
  omega

/-- What `getargs` hands over. -/
theorem syscallGetargs_eq
    (hargs : HoldsString pcb.text maxProgramNameLength args) (hnul : 0 ∉ args)
    (hlength : args.length < maxArgsLength) {buf : Nat} {nbytes : Int}
    (hbuf : InProcessPage buf) (hnonneg : 0 ≤ nbytes)
    (hlt : nbytes < 2 ^ 31) :
    syscallGetargs pcb buf nbytes =
      some (if args.length < nbytes then (0, args ++ [0]) else (-1, [])) := by
  have hholds : HoldsString pcb.bytes maxProgramNameLength args := by
    rwa [HoldsString, bytes_load_args hlength]
  have hfuel : args.length < 2 ^ 32 := Nat.lt_trans hlength (by decide)
  have hfound : pcb.argsLength = some args.length :=
    strlenFrom_eq hholds hnul hfuel
  have hsize : ¬ toUint32 nbytes < (args.length + 1) % 2 ^ 32 ↔
      (args.length : Int) < nbytes := by
    simp only [maxArgsLength] at hlength
    rw [toUint32_of_nonneg hnonneg (by omega)]
    omega
  rw [syscallGetargs, inPageBounds_of_inProcessPage hbuf hnonneg hlt, hfound,
    Option.map_some, hholds.load_eq]
  by_cases hroom : (args.length : Int) < nbytes
  · rw [if_pos hroom, if_neg (hsize.mpr hroom)]
    rfl
  · rw [if_neg hroom, if_pos (not_not.mp (mt hsize.mp hroom))]
    rfl

end Getargs

section Started

variable {img : Image} {layout : Layout} {k next final : Kernel}
  {command : List UInt8} {esp ebp child entrypoint : Nat} {junk : Junk}

theorem started_current (hlength : command.length ≤ 127)
    (hstart : syscallExecute img layout k command esp ebp junk =
      (next, .entered child entrypoint)) :
    next.current = child := by
  obtain ⟨hfree, rfl⟩ := syscallExecute_started hstart
  have hslot : (k.namedPcb command child).slotNum = child := by
    rw [Kernel.namedPcb,
      parseCommand_text (commandEnd_le_of_length hlength)]
  rw [Kernel.current, startProcess_esp]
  simp only [Kernel.modify, Function.update_self, hslot]
  exact slotOfEsp_base (freeSlot_spec hfree).1

theorem started_text
    (hstart : syscallExecute img layout k command esp ebp junk =
      (next, .entered child entrypoint)) :
    (next.pcb child).text = (k.namedPcb command child).text := by
  obtain ⟨-, rfl⟩ := syscallExecute_started hstart
  rw [startProcess_text]
  exact congrArg Pcb.text (Function.update_self ..)

/-- The arguments stay while the process lasts. -/
theorem text_kept {transitions : List SystemTransition}
    (hexec : Execution (systemStep img layout) next transitions final)
    (huse : ∀ step ∈ transitions, (step.before.pcb child).inUse = true) :
    (final.pcb child).text = (next.pcb child).text := by
  induction hexec with
  | nil => rfl
  | concat hearlier hstep ih =>
      rw [systemStep_text hstep (huse _ List.mem_concat_self)]
      exact ih fun step hmem => huse step (List.mem_append_left _ hmem)

end Started

/-- A program that is started finds what the command holds behind its first
space, at every moment of its life. -/
theorem arguments_reach_program {img : Image} {layout : Layout}
    {k next : Kernel} {command : List UInt8} {esp ebp child entrypoint : Nat}
    {junk : Junk} (hlength : command.length ≤ 127) (hnul : 0 ∉ command)
    (hstart : syscallExecute img layout k command esp ebp junk =
      (next, .entered child entrypoint)) :
    next.current = child ∧
      HoldsString (next.pcb child).text 0 (commandName command) ∧
      HoldsString (next.pcb child).text maxProgramNameLength
        (commandArgs command) ∧
      32 ∉ commandName command ∧
      (32 ∈ command →
        command = commandName command ++ 32 :: commandArgs command) ∧
      (32 ∉ command →
        commandName command = command ∧ commandArgs command = []) ∧
      ∀ (transitions : List SystemTransition) (final : Kernel),
        Execution (systemStep img layout) next transitions final →
        (∀ step ∈ transitions, (step.before.pcb child).inUse = true) →
        ∀ (buf : Nat) (nbytes : Int), InProcessPage buf → 0 ≤ nbytes →
          nbytes < 2 ^ 31 →
          syscallGetargs (final.pcb child) buf nbytes =
            some (if (commandArgs command).length < nbytes then
              (0, commandArgs command ++ [0]) else (-1, [])) := by
  obtain ⟨hname, hargs⟩ := parseCommand_fields hlength hnul
    { k.pcb child with slotNum := child }
  have htext := started_text hstart
  refine ⟨started_current hlength hstart, htext ▸ hname, htext ▸ hargs,
    space_not_mem_commandName command, command_of_space, command_of_no_space,
    ?_⟩
  intro transitions final hexec huse buf nbytes hbuf hnonneg hlt
  have hkept : HoldsString (final.pcb child).text maxProgramNameLength
      (commandArgs command) := by
    rw [text_kept hexec huse, htext]
    exact hargs
  have hshort : (commandArgs command).length < maxArgsLength := by
    have hle : (commandArgs command).length ≤ command.length := by
      rw [← drop_lenName hnul]
      exact (List.drop_sublist _ _).length_le
    simp only [maxArgsLength]
    omega
  exact syscallGetargs_eq hkept (zero_not_mem_commandArgs hnul) hshort hbuf
    hnonneg hlt

/-- A program started as `s a` asks for its arguments after a tick of the
clock, with room for two bytes and then for one. -/
theorem oneArgument_reaches_program : ∃ next final entrypoint,
    syscallExecute shellImage sampleLayout sampleKernel [115, 32, 97]
      (sampleEsp 0) 0 Junk.zero = (next, .entered 3 entrypoint) ∧
    systemStep shellImage sampleLayout next .clock = some (final, .ticked) ∧
    syscallGetargs (final.pcb 3) 0x8048000 2 = some (0, [97, 0]) ∧
    syscallGetargs (final.pcb 3) 0x8048000 1 = some (-1, []) := by
  have houtcome : (syscallExecute shellImage sampleLayout sampleKernel
      [115, 32, 97] (sampleEsp 0) 0 Junk.zero).2 = .entered 3 0x8040000 ∧
      ((syscallExecute shellImage sampleLayout sampleKernel [115, 32, 97]
        (sampleEsp 0) 0 Junk.zero).1.pcb 3).inUse = true := by
    decide +kernel
  cases hresult : syscallExecute shellImage sampleLayout sampleKernel
      [115, 32, 97] (sampleEsp 0) 0 Junk.zero with
  | mk next outcome =>
      rw [hresult] at houtcome
      obtain ⟨rfl, huse⟩ := houtcome
      obtain ⟨-, -, -, -, -, -, hgetargs⟩ :=
        arguments_reach_program (by decide) (by decide) hresult
      have hexec : Execution (systemStep shellImage sampleLayout) next
          [⟨next, .clock, .ticked, tickAll next⟩] (tickAll next) :=
        Execution.cons rfl .nil
      have hfinal := hgetargs _ _ hexec (by simpa using huse) 0x8048000
      exact ⟨next, tickAll next, _, rfl, rfl,
        hfinal 2 (by decide) (by decide) (by decide),
        hfinal 1 (by decide) (by decide) (by decide)⟩

end PsychOS
