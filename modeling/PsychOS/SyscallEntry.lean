/-
The way of a system call from a C program into the kernel and back: the call
in the user library, the software interrupt, the wrapper with its jump table,
the function in the kernel, and the return.  What the kernel's functions do is
left open; the question here is whether a program that calls one of them in
user mode gets exactly that, and nothing else.
-/
import PsychOS.InterruptTable
import PsychOS.Lib.CallingConvention

namespace PsychOS

def syscallMinNum : BitVec 32 := 1
def syscallMaxNum : BitVec 32 := 10

/-- `syscall_handler_wrapper`, given where its table and its last label are. -/
def syscallHandlerWrapper (syscallJumpTable invalidSyscallNum : BitVec 32) :
    List Instr :=
  [ .op .cli,
    .op (.cmpImm .eax syscallMinNum), .jl invalidSyscallNum,
    .op (.cmpImm .eax syscallMaxNum), .jg invalidSyscallNum,
    .op (.pushReg .ebp), .op (.pushReg .edi), .op (.pushReg .esi),
    .op (.pushReg .edx), .op (.pushReg .ecx), .op (.pushReg .ebx), .op .cld,
    .callTable syscallJumpTable .eax,
    .op (.popReg .ebx), .op (.popReg .ecx), .op (.popReg .edx),
    .op (.popReg .esi), .op (.popReg .edi), .op (.popReg .ebp),
    .iret ]

/-- The code at `invalid_syscall_num`. -/
def invalidSyscall : List Instr := [.op (.movImm .eax (-1)), .iret]

/-- `DO_CALL`: a library function for the system call of a number. -/
def doCall (number : BitVec 32) : List Instr :=
  [ .op (.pushReg .ebx),
    .op (.movImm .eax number),
    .op (.load .ebx .esp 8), .op (.load .ecx .esp 12), .op (.load .edx .esp 16),
    .int syscallInt,
    .op (.popReg .ebx),
    .ret ]

/-- `_start`: call `main` and halt with what it returns. -/
def programStart (main halt : BitVec 32) : List Instr :=
  [ .call main,
    .op (.pushImm 0), .op (.pushImm 0), .op (.pushReg .eax),
    .call halt ]

def userCs : BitVec 32 := 0x23
def userDs : BitVec 16 := 0x2B
def eflagsInterrupt : BitVec 32 := 0x200

/-- `switch_to_ring_3`. -/
def switchToRing3 : List Instr :=
  [ .op .cli,
    .op (.load .ebx .esp 8),
    .op (.load .ecx .esp 4),
    .op (.xorReg .eax .eax),
    .op (.movLow .eax userDs),
    .op (.movSeg .ds .eax), .op (.movSeg .es .eax), .op (.movSeg .fs .eax),
    .op (.movSeg .gs .eax),
    .op (.pushImm (userDs.setWidth 32)),
    .op (.pushReg .ecx),
    .op .pushFlags, .op (.popReg .eax), .op (.orImm .eax eflagsInterrupt),
    .op (.pushReg .eax),
    .op (.pushImm userCs),
    .op (.pushReg .ebx),
    .iret ]

/-- The registers that the wrapper saves. -/
def wrapperSaves : List Reg := [.ebp, .edi, .esi, .edx, .ecx, .ebx]

/-- The kernel's side: the table that `entry` sets up is in use, the wrapper is
where it says, and the jump table is clear of the kernel stack. -/
structure SyscallKernel (platform : Platform) (addrs : HandlerAddresses)
    (low : Nat) (syscallJumpTable : BitVec 32) : Prop where
  idt : platform.UsesIdt addrs
  wrapper : ∃ invalidSyscallNum last,
    platform.Placed addrs.syscallHandlerWrapper
      (syscallHandlerWrapper syscallJumpTable invalidSyscallNum)
      invalidSyscallNum ∧
    platform.Placed invalidSyscallNum invalidSyscall last
  table : syscallJumpTable.toNat + 44 ≤ low ∨
    platform.esp0.toNat ≤ syscallJumpTable.toNat
  fits : syscallJumpTable.toNat + 44 ≤ 2 ^ 32

/-- The table with its placeholder and the addresses of the ten functions. -/
def HoldsJumpTable (syscallJumpTable : BitVec 32) (handlers : List (BitVec 32))
    (mem : Memory UInt8) : Prop :=
  StackAt mem syscallJumpTable (0 :: handlers)

/-- Calls of the library in user mode.  The kernel's stack is memory that user
programs do not see. -/
def Convention.user (platform : Platform) (kernelLow low high : Nat)
    (holds : Memory UInt8 → Prop) : Convention where
  level := 3
  low := low
  high := high
  above := 4
  hidden := Set.Ico kernelLow platform.esp0.toNat
  holds := holds

section Sample

/-- A function that always returns 7, the call that halts, the start of a
program with that function as `main`, and the switch to it. -/
def sampleProgram : List Instr :=
  [.op (.movImm .eax 7), .ret] ++ (doCall 1 ++ (programStart 30 32 ++
    switchToRing3))

/-- A library function, the wrapper, and the program, whose function serves the
kernel too. -/
def sampleCode : List Instr :=
  doCall 3 ++ syscallHandlerWrapper 0x1000 28 ++ invalidSyscall ++
    sampleProgram

def sampleAddresses : HandlerAddresses where
  interruptHandler := fun _ => 0
  nullInterruptHandler := 0
  syscallHandlerWrapper := 8
  keyboardHandlerWrapper := 0
  rtcHandlerWrapper := 0
  pitHandlerWrapper := 0

def samplePlatform : Platform where
  code := Platform.laidOut sampleCode
  idt := fun vector => {
    offset := sampleAddresses.handler vector
    selector := kernelCs.setWidth 32
    present := true
    dpl := if vector = syscallInt then 3 else 0 }
  esp0 := 0x800000
  ss0 := 0x18

/-- The bottom of the kernel stack. -/
def sampleLow : Nat := 0x7FE000

theorem samplePlatform_kernel :
    SyscallKernel samplePlatform sampleAddresses sampleLow 0x1000 where
  idt := by
    let start : Idt := fun _ => exceptionHandleDesc 0 0 0
    exact ⟨start, fun vector => decodeGate_setUpIdt sampleAddresses start
      vector⟩
  wrapper := by
    refine ⟨28, 30, ?_, ?_⟩
    · exact Platform.placed_laidOut sampleCode (doCall 3) _
        (invalidSyscall ++ sampleProgram) rfl rfl (by decide)
    · exact Platform.placed_laidOut sampleCode
        (doCall 3 ++ syscallHandlerWrapper 0x1000 28) invalidSyscall
        sampleProgram rfl rfl (by decide)
  table := by decide
  fits := by decide

/-- All ten calls go to the one function. -/
def sampleHandlers : List (BitVec 32) := List.replicate 10 30

theorem sampleHandlers_implement (conv : Convention) (room params : Nat) :
    samplePlatform.Implements conv room 30 (.constant params 7) := by
  have hplaced := @Platform.placed_laidOut samplePlatform sampleCode
    (doCall 3 ++ syscallHandlerWrapper 0x1000 28 ++ invalidSyscall)
    [.op (.movImm .eax 7), .ret]
    (doCall 1 ++ (programStart 30 32 ++ switchToRing3)) rfl
    (by simp only [sampleCode, sampleProgram, List.append_assoc]) (by decide)
  exact constant_implements hplaced conv room params

/-- A memory with the jump table. -/
def sampleMemory : Memory UInt8 := fun a =>
  if 0x1004 ≤ a ∧ a < 0x102C ∧ a % 4 = 0 then 30 else 0

theorem sampleMemory_table :
    HoldsJumpTable 0x1000 sampleHandlers sampleMemory := by
  refine ⟨?_, ?_, ?_, ?_, ?_, ?_, ?_, ?_, ?_, ?_, ?_, trivial⟩ <;> decide

/-- A user program at the interrupt of its library function. -/
def sampleCaller : Machine where
  regs := fun r => match r with
    | .eax => 3
    | .esp => 0x83FFF00
    | _ => 0
  seg := fun s => if s = .cs then 0x23 else 0x2B
  eip := 5
  eflags := 0x202
  mem := sampleMemory

end Sample

section Entry

variable {platform : Platform} {addrs : HandlerAddresses} {low room : Nat}
  {table next : BitVec 32} {handlers : List (BitVec 32)} {m d : Machine}

/-- The machine in which the wrapper starts. -/
def Platform.syscallEntered (platform : Platform) (m : Machine)
    (next : BitVec 32) : Machine :=
  platform.deliver (platform.idt syscallInt) none next m

theorem syscall_step (hkernel : SyscallKernel platform addrs low table)
    (hcode : platform.code m.eip = some (.int syscallInt, next))
    (hlevel : m.cpl = 3) :
    platform.step m = some (platform.syscallEntered m next) := by
  have hgate := hkernel.idt.gate syscallInt
  rw [Platform.step, hcode]
  show some (platform.interrupt syscallInt next m) = _
  rw [Platform.interrupt, if_pos]
  · rfl
  · rw [hgate, hlevel]
    exact ⟨rfl, le_refl 3⟩

section UserMode

variable (next) (hlevel : m.cpl = 3)
include hlevel

theorem entryEsp_user : platform.entryEsp m = platform.esp0 := if_pos hlevel

theorem entryWords_length_user :
    (Platform.entryWords m none next).length = 5 := by
  rw [Platform.entryWords_length, if_pos hlevel]
  rfl

theorem syscallEntered_regs :
    (platform.syscallEntered m next).regs =
      Function.update m.regs .esp (platform.esp0 - 20) := by
  have hregs := (@Platform.deliver_regs platform m (platform.idt syscallInt)
    none next).1
  rw [entryEsp_user hlevel, entryWords_length_user next hlevel] at hregs
  exact hregs

theorem syscallEntered_esp (hroom : 20 ≤ platform.esp0.toNat) :
    ((platform.syscallEntered m next).regs .esp).toNat =
      platform.esp0.toNat - 20 := by
  rw [syscallEntered_regs next hlevel, Function.update_self]
  exact @toNat_sub_words platform.esp0 5 hroom

theorem syscallEntered_mem (hroom : 20 ≤ platform.esp0.toNat) :
    Set.EqOn (platform.syscallEntered m next).mem m.mem
      (Set.Ico (platform.esp0.toNat - 20) platform.esp0.toNat)ᶜ := by
  have hmem := @Platform.deliver_mem platform m (platform.idt syscallInt) none
    next (by
      rw [entryEsp_user hlevel, entryWords_length_user next hlevel]
      exact hroom)
  rw [entryEsp_user hlevel, entryWords_length_user next hlevel] at hmem
  exact hmem

omit hlevel in
theorem syscallEntered_cpl (hkernel : SyscallKernel platform addrs low table) :
    (platform.syscallEntered m next).cpl = 0 := by
  have hseg := (@Platform.deliver_regs platform m (platform.idt syscallInt)
    none next).2
  rw [Platform.syscallEntered, Machine.cpl, hseg, Function.update_self]
  exact hkernel.idt.selector syscallInt

/-- Back in user mode, from a state with the frame still on the stack. -/
theorem syscall_iret (hkernel : SyscallKernel platform addrs low table)
    (hroom : 20 ≤ platform.esp0.toNat) {m' : Machine}
    (hseg : m'.seg = (platform.syscallEntered m next).seg)
    (hesp : m'.regs .esp = (platform.syscallEntered m next).regs .esp)
    (hmem : Set.EqOn m'.mem (platform.syscallEntered m next).mem
      (Set.Ico (platform.esp0.toNat - 20) platform.esp0.toNat)) :
    m'.interruptReturn = { m' with
      eip := next
      eflags := m.eflags
      seg := m.seg
      regs := Function.update m'.regs .esp (m.regs .esp) } := by
  apply Platform.deliver_interruptReturn (hkernel.idt.selector syscallInt)
    (.inr hlevel) _ hseg hesp
  · rw [entryEsp_user hlevel, entryWords_length_user next hlevel]
    exact hmem
  · rw [entryEsp_user hlevel, entryWords_length_user next hlevel]
    exact hroom

end UserMode

/-- The check of the number.  It changes nothing but flags. -/
theorem runs_number_check {addr pushes invalid : BitVec 32}
    (hplaced : platform.Placed addr
      [.op .cli, .op (.cmpImm .eax syscallMinNum), .jl invalid,
        .op (.cmpImm .eax syscallMaxNum), .jg invalid] pushes)
    (heip : d.eip = addr) :
    ∃ d', platform.Runs d d' ∧ d'.regs = d.regs ∧ d'.seg = d.seg ∧
      d'.mem = d.mem ∧ d'.eip =
        if 1 ≤ (d.regs .eax).toInt ∧ (d.regs .eax).toInt ≤ 10 then pushes
        else invalid := by
  obtain ⟨check, hcli, hchecks⟩ := Platform.Placed.append [.op .cli] hplaced
  obtain ⟨middle, hleast, hmost⟩ := Platform.Placed.append
    [.op (.cmpImm .eax syscallMinNum), .jl invalid] hchecks
  have hone : syscallMinNum.toInt = 1 := by decide
  have hten : syscallMaxNum.toInt = 10 := by decide
  let d₁ := ((Op.cli).exec d).goto check
  have hfirst : platform.Runs d d₁ :=
    @Platform.runs_ops platform d [.cli] _ _ hcli heip
  have hsecond := @Platform.runs_cmp_jl platform d₁ _ _ _ _ _ hleast rfl
  rw [hone] at hsecond
  by_cases hless : (d.regs .eax).toInt < 1
  · refine ⟨_, hfirst.trans hsecond, rfl, rfl, rfl, ?_⟩
    show (if (d.regs .eax).toInt < 1 then invalid else middle) = _
    rw [if_pos hless, if_neg (by omega)]
  · rw [if_neg (show ¬ (d₁.regs .eax).toInt < 1 from hless)] at hsecond
    have hthird := @Platform.runs_cmp_jg platform
      (Platform.compared d₁ .eax syscallMinNum middle) _ _ _ _ _ hmost rfl
    refine ⟨_, hfirst.trans (hsecond.trans hthird), rfl, rfl, rfl, ?_⟩
    show (if syscallMaxNum.toInt < (d.regs .eax).toInt then invalid
      else pushes) = _
    rw [hten]
    by_cases hgreater : 10 < (d.regs .eax).toInt
    · rw [if_pos hgreater, if_neg (by omega)]
    · rw [if_neg hgreater, if_pos (by omega)]

/-- The arguments of a system call are in registers. -/
def syscallArgs (m : Machine) : List (BitVec 32) :=
  [m.regs .ebx, m.regs .ecx, m.regs .edx]

/-- The state in which a program goes on after a system call: the result is in
`eax`, and what the kernel function was not called for is as it was.  The
registers with the arguments are popped from the function's own parameters,
so nothing is said about them. -/
structure SyscallReturned (platform : Platform) (low : Nat) (spec : CallSpec)
    (m : Machine) (next : BitVec 32) (m' : Machine) : Prop where
  eip : m'.eip = next
  eflags : m'.eflags = m.eflags
  seg : m'.seg = m.seg
  saved : ∀ r ∈ [Reg.esp, .ebp, .esi, .edi], m'.regs r = m.regs r
  result : ∃ entered,
    Set.EqOn entered m.mem (Set.Ico low platform.esp0.toNat)ᶜ ∧
      spec.result (syscallArgs m) entered (m'.regs .eax) m'.mem
  unchanged : Set.EqOn m'.mem m.mem
    (Set.Ico low platform.esp0.toNat ∪ spec.writes (syscallArgs m))ᶜ

/-- The wrapper in its parts. -/
theorem SyscallKernel.parts (hkernel : SyscallKernel platform addrs low table) :
    ∃ invalid pushes call after iret last,
      platform.Placed addrs.syscallHandlerWrapper
        [.op .cli, .op (.cmpImm .eax syscallMinNum), .jl invalid,
          .op (.cmpImm .eax syscallMaxNum), .jg invalid] pushes ∧
      platform.Placed pushes ((saveRegs wrapperSaves).map .op) call ∧
      platform.code call = some (.callTable table .eax, after) ∧
      platform.Placed after ((restoreRegs wrapperSaves).map .op) iret ∧
      platform.code iret = some (.iret, invalid) ∧
      platform.Placed invalid invalidSyscall last := by
  obtain ⟨invalid, last, hwrapper, hinvalid⟩ := hkernel.wrapper
  obtain ⟨pushes, hcheck, hrest⟩ := Platform.Placed.append
    [.op .cli, .op (.cmpImm .eax syscallMinNum), .jl invalid,
      .op (.cmpImm .eax syscallMaxNum), .jg invalid] hwrapper
  obtain ⟨call, hsave, hrest⟩ := Platform.Placed.append
    ((saveRegs wrapperSaves).map .op) hrest
  obtain ⟨after, hcall, hrest⟩ := hrest
  obtain ⟨iret, hrestore, hrest⟩ := Platform.Placed.append
    ((restoreRegs wrapperSaves).map .op) hrest
  obtain ⟨behind, hiret, rfl⟩ := hrest
  exact ⟨_, pushes, call, after, iret, last, hcheck, hsave, hcall, hrestore,
    hiret, hinvalid⟩

/-- The jump table gives the function of a number. -/
theorem HoldsJumpTable.load {mem mem' : Memory UInt8} {n : Nat}
    {f : BitVec 32} (htable : HoldsJumpTable table handlers mem)
    (hkernel : SyscallKernel platform addrs low table)
    (hsame : Set.EqOn mem' mem (Set.Ico low platform.esp0.toNat)ᶜ)
    (hn : n ≤ 10) (hget : (0 :: handlers)[n]? = some f) :
    loadWord mem' (table + 4 * BitVec.ofNat 32 n) = f := by
  have hfits := hkernel.fits
  have hclear := hkernel.table
  have haddr := @toNat_add_words table n (by omega)
  rw [← StackAt.get htable hget]
  apply loadWord_congr (by omega)
  intro a ha
  rw [Set.mem_Ico] at ha
  apply hsame
  rw [Set.mem_compl_iff, Set.mem_Ico]
  omega

/-- A number that passes the check. -/
theorem ofNat_toNat_of_range {eax : BitVec 32} (hone : 1 ≤ eax.toInt)
    (hten : eax.toInt ≤ 10) :
    1 ≤ eax.toNat ∧ eax.toNat ≤ 10 ∧ eax = BitVec.ofNat 32 eax.toNat := by
  have hword := eax.isLt
  rw [BitVec.toInt_eq_toNat_cond] at hone hten
  refine ⟨?_, ?_, ?_⟩
  · split at hone <;> omega
  · split at hten <;> omega
  · rw [BitVec.ofNat_toNat, BitVec.setWidth_eq]

/-- The machine after the check: as it entered, but for flags. -/
structure Checked (platform : Platform) (m : Machine) (next : BitVec 32)
    (d : Machine) : Prop where
  runs : platform.Runs m d
  level : d.cpl = 0
  regs : d.regs = Function.update m.regs .esp (platform.esp0 - 20)
  esp : (d.regs .esp).toNat = platform.esp0.toNat - 20
  seg : d.seg = (platform.syscallEntered m next).seg
  mem : d.mem = (platform.syscallEntered m next).mem

/-- Into the wrapper and through its check. -/
theorem syscall_checked {pushes invalid : BitVec 32}
    (hkernel : SyscallKernel platform addrs low table)
    (hcheck : platform.Placed addrs.syscallHandlerWrapper
      [.op .cli, .op (.cmpImm .eax syscallMinNum), .jl invalid,
        .op (.cmpImm .eax syscallMaxNum), .jg invalid] pushes)
    (hcode : platform.code m.eip = some (.int syscallInt, next))
    (hlevel : m.cpl = 3) (hroom : 20 ≤ platform.esp0.toNat) :
    ∃ d, Checked platform m next d ∧ d.eip =
      if 1 ≤ (m.regs .eax).toInt ∧ (m.regs .eax).toInt ≤ 10 then pushes
      else invalid := by
  have hentered := @syscallEntered_regs platform next m hlevel
  have heip : (platform.syscallEntered m next).eip =
      addrs.syscallHandlerWrapper := by
    show (platform.idt syscallInt).offset = _
    rw [hkernel.idt.gate syscallInt]
    rfl
  obtain ⟨d, hruns, hregs, hseg, hmem, heip'⟩ := runs_number_check hcheck heip
  refine ⟨d, ⟨?_, ?_, ?_, ?_, hseg, hmem⟩, ?_⟩
  · exact (Platform.runs_step (syscall_step hkernel hcode hlevel)).trans hruns
  · rw [Machine.cpl, hseg]
    exact syscallEntered_cpl next hkernel
  · rw [hregs, hentered]
  · rw [hregs]
    exact syscallEntered_esp next hlevel hroom
  · rw [heip', hentered, Function.update_of_ne (by decide)]

/-- What the wrapper's return gives back. -/
theorem Checked.iret {m' : Machine} {iret behind : BitVec 32}
    (hchecked : Checked platform m next d)
    (hkernel : SyscallKernel platform addrs low table) (hlevel : m.cpl = 3)
    (hroom : 20 ≤ platform.esp0.toNat)
    (hcode : platform.code iret = some (.iret, behind))
    (heip : m'.eip = iret) (hseg : m'.seg = d.seg)
    (hesp : m'.regs .esp = d.regs .esp)
    (hmem : Set.EqOn m'.mem d.mem
      (Set.Ico (platform.esp0.toNat - 20) platform.esp0.toNat)) :
    platform.Runs m' { m' with
      eip := next
      eflags := m.eflags
      seg := m.seg
      regs := Function.update m'.regs .esp (m.regs .esp) } := by
  apply Platform.runs_step
  rw [Platform.step, heip, hcode]
  rw [hchecked.mem] at hmem
  have hentered := @syscallEntered_regs platform next m hlevel
  rw [hchecked.regs, ← hentered] at hesp
  exact congrArg some (syscall_iret next hlevel hkernel hroom
    (hseg.trans hchecked.seg) hesp hmem)

/-- A call of a number that is not one of the ten. -/
theorem syscall_invalid (hkernel : SyscallKernel platform addrs low table)
    (hcode : platform.code m.eip = some (.int syscallInt, next))
    (hlevel : m.cpl = 3) (hroom : 20 ≤ platform.esp0.toNat)
    (hnumber : ¬ (1 ≤ (m.regs .eax).toInt ∧ (m.regs .eax).toInt ≤ 10)) :
    ∃ m', platform.Runs m m' ∧ m'.eip = next ∧ m'.eflags = m.eflags ∧
      m'.seg = m.seg ∧ m'.regs = Function.update m.regs .eax (-1) ∧
      Set.EqOn m'.mem m.mem
        (Set.Ico (platform.esp0.toNat - 20) platform.esp0.toNat)ᶜ := by
  obtain ⟨invalid, pushes, call, after, iret, last, hcheck, -, -, -, -,
    hinvalid⟩ := hkernel.parts
  obtain ⟨d, hchecked, heip⟩ :=
    syscall_checked hkernel hcheck hcode hlevel hroom
  rw [if_neg hnumber] at heip
  obtain ⟨back, hmov, behind, hiret, rfl⟩ := hinvalid
  have hruns := @Platform.runs_ops platform d [.movImm .eax (-1)] invalid back
    ⟨back, hmov, rfl⟩ heip
  have hreturn := @Checked.iret _ _ _ _ _ _ _ ((d.set .eax (-1)).goto back) _ _
    hchecked hkernel hlevel hroom hiret rfl rfl rfl (Set.eqOn_refl _ _)
  refine ⟨_, hchecked.runs.trans (hruns.trans hreturn), rfl, rfl, rfl, ?_, ?_⟩
  · show Function.update (Function.update d.regs .eax (-1)) .esp
      (m.regs .esp) = _
    rw [hchecked.regs]
    funext r
    cases r <;> rfl
  · show Set.EqOn d.mem m.mem _
    rw [hchecked.mem]
    exact syscallEntered_mem next hlevel hroom

section Valid

variable {spec : CallSpec} {f call after : BitVec 32}

/-- The call through the table. -/
theorem Checked.tableCall (hchecked : Checked platform m next d)
    (hkernel : SyscallKernel platform addrs low table) (hlevel : m.cpl = 3)
    (hlow : low + 48 ≤ platform.esp0.toNat)
    (htable : HoldsJumpTable table handlers m.mem)
    (hone : 1 ≤ (m.regs .eax).toInt) (hten : (m.regs .eax).toInt ≤ 10)
    (hget : (0 :: handlers)[(m.regs .eax).toNat]? = some f)
    (hcall : platform.code call = some (.callTable table .eax, after)) :
    platform.step (d.saving wrapperSaves call) =
      some (d.calling wrapperSaves call after f) := by
  have hesp := hchecked.esp
  have hlength : wrapperSaves.length = 6 := rfl
  obtain ⟨-, hmost, hnumber⟩ := ofNat_toNat_of_range hone hten
  have heax : (d.saving wrapperSaves call).regs .eax = m.regs .eax := by
    rw [(saving_regs _ _).1, Function.update_of_ne (by decide), hchecked.regs,
      Function.update_of_ne (by decide)]
  have hsame : Set.EqOn (d.saving wrapperSaves call).mem m.mem
      (Set.Ico low platform.esp0.toNat)ᶜ := by
    intro a ha
    rw [Set.mem_compl_iff, Set.mem_Ico] at ha
    rw [saving_mem call (by omega)
      (by rw [Set.mem_compl_iff, Set.mem_Ico]; omega), hchecked.mem]
    apply syscallEntered_mem next hlevel (by omega)
    rw [Set.mem_compl_iff, Set.mem_Ico]
    omega
  have hload := htable.load hkernel hsame hmost hget
  have hcode : platform.code (d.saving wrapperSaves call).eip =
      some (.callTable table .eax, after) := hcall
  rw [Platform.step, hcode]
  refine congrArg (fun eip =>
    some (((d.saving wrapperSaves call).push after).goto eip)) ?_
  rw [heax, hnumber]
  exact hload

/-- The function of the number is called with the arguments. -/
theorem syscall_reaches (hkernel : SyscallKernel platform addrs low table)
    (hcode : platform.code m.eip = some (.int syscallInt, next))
    (hlevel : m.cpl = 3) (hlow : low + 48 ≤ platform.esp0.toNat)
    (htable : HoldsJumpTable table handlers m.mem)
    (hone : 1 ≤ (m.regs .eax).toInt) (hten : (m.regs .eax).toInt ≤ 10)
    (hget : (0 :: handlers)[(m.regs .eax).toNat]? = some f) :
    ∃ m' back, platform.Runs m m' ∧ m'.eip = f ∧ m'.cpl = 0 ∧
      m'.Stack (back :: syscallArgs m) := by
  obtain ⟨invalid, pushes, call, after, iret, last, hcheck, hsave, hcall,
    -⟩ := hkernel.parts
  obtain ⟨d, hchecked, heip⟩ :=
    syscall_checked hkernel hcheck hcode hlevel (by omega)
  rw [if_pos ⟨hone, hten⟩] at heip
  have hstep := hchecked.tableCall hkernel hlevel hlow htable hone hten hget
    hcall
  refine ⟨d.calling wrapperSaves call after f, after, ?_, rfl, ?_, ?_⟩
  · refine hchecked.runs.trans ((runs_saving (by decide) hsave heip).trans ?_)
    exact Platform.runs_step hstep
  · exact (calling_cpl call after f).trans hchecked.level
  · have hempty : d.Stack [] := trivial
    have hstack := calling_stack hempty call after f
      (show wrapperSaves.length + 0 ≤ maxStackWords by decide)
    have hargs : wrapperSaves.reverse.map d.regs = syscallArgs m ++
        [m.regs .esi, m.regs .edi, m.regs .ebp] := by
      rw [hchecked.regs]
      rfl
    rw [List.append_nil, hargs] at hstack
    exact ⟨hstack.1, StackAt.of_append hstack.2⟩

/-- The function returns to the program. -/
theorem syscall_returned (hkernel : SyscallKernel platform addrs low table)
    (hcode : platform.code m.eip = some (.int syscallInt, next))
    (hlevel : m.cpl = 3)
    (hlow : low + room + 48 ≤ platform.esp0.toNat)
    (htable : HoldsJumpTable table handlers m.mem)
    (hone : 1 ≤ (m.regs .eax).toInt) (hten : (m.regs .eax).toInt ≤ 10)
    (hget : (0 :: handlers)[(m.regs .eax).toNat]? = some f)
    (hf : platform.Implements
      (.kernel low platform.esp0.toNat spec.params) room f spec)
    (hparams : spec.params = 3)
    (hwrites : Disjoint (spec.writes (syscallArgs m))
      (Set.Ico low platform.esp0.toNat)) :
    ∃ m', platform.Runs m m' ∧
      SyscallReturned platform low spec m next m' := by
  obtain ⟨invalid, pushes, call, after, iret, last, hcheck, hsave, hcall,
    hrestore, hiret, -⟩ := hkernel.parts
  obtain ⟨d, hchecked, heip⟩ :=
    syscall_checked hkernel hcheck hcode hlevel (by omega)
  rw [if_pos ⟨hone, hten⟩] at heip
  have hesp := hchecked.esp
  have hargs : savedArgs wrapperSaves spec.params d = syscallArgs m := by
    rw [hparams, savedArgs, hchecked.regs]
    rfl
  have hlength : wrapperSaves.length = 6 := rfl
  obtain ⟨m', value, hruns, heip', hseg, hesp', heax, hsaved, hresult,
    hunchanged⟩ := runs_saved_call (by decide) (by decide) hsave
      (hchecked.tableCall hkernel hlevel (by omega) htable hone hten hget hcall)
      hrestore hf heip hchecked.level (by decide)
      (by rw [hparams, hlength]; decide) (by omega) (by omega)
      (by rwa [hargs])
  rw [hargs, hesp] at hunchanged hresult
  have hframe : Set.EqOn m'.mem d.mem
      (Set.Ico (platform.esp0.toNat - 20) platform.esp0.toNat) :=
    eqOn_stack_above hunchanged hwrites (by omega)
  have hstack : Set.Ico low (platform.esp0.toNat - 20) ⊆
      Set.Ico low platform.esp0.toNat :=
    Set.Ico_subset_Ico_right (by omega)
  have hdmem : Set.EqOn d.mem m.mem (Set.Ico low platform.esp0.toNat)ᶜ := by
    intro a ha
    rw [Set.mem_compl_iff, Set.mem_Ico] at ha
    rw [hchecked.mem]
    apply syscallEntered_mem next hlevel (by omega)
    rw [Set.mem_compl_iff, Set.mem_Ico]
    omega
  have hreturn := hchecked.iret hkernel hlevel (by omega) hiret heip' hseg
    hesp' hframe
  have hkept : ∀ i r, 3 ≤ i → wrapperSaves.reverse[i]? = some r → r ≠ .esp →
      Function.update m'.regs .esp (m.regs .esp) r = m.regs r := by
    intro i r hi hr hne
    rw [Function.update_of_ne hne, hsaved i r (by omega) hr, hchecked.regs,
      Function.update_of_ne hne]
  refine ⟨_, hchecked.runs.trans (hruns.trans hreturn), rfl, rfl, rfl, ?_, ?_,
    ?_⟩
  · intro r hr
    simp only [List.mem_cons, List.not_mem_nil, or_false] at hr
    rcases hr with rfl | rfl | rfl | rfl
    · show Function.update m'.regs .esp (m.regs .esp) .esp = _
      rw [Function.update_self]
    · exact hkept 5 .ebp (by decide) rfl (by decide)
    · exact hkept 3 .esi (by decide) rfl (by decide)
    · exact hkept 4 .edi (by decide) rfl (by decide)
  · obtain ⟨entered, hsame, hresult⟩ := hresult
    refine ⟨entered, ?_, ?_⟩
    · exact eqOn_compl_trans hsame hdmem hstack Set.Subset.rfl
    · show spec.result _ _
        (Function.update m'.regs .esp (m.regs .esp) .eax) _
      rw [Function.update_of_ne (by decide), heax (by decide)]
      exact hresult
  · exact eqOn_compl_trans hunchanged hdmem
      (Set.union_subset_union_left _ hstack) Set.subset_union_left

/-- A system call comes back to the program if its function does.  With a number
that is not one of the ten calls, nothing happens but that `eax` is −1; with
one of them, the function of that number has been called with the words in
`ebx`, `ecx` and `edx`, and its result is in `eax`.  `syscall_halt` is the one
that does not return. -/
theorem syscall_round_trip (hkernel : SyscallKernel platform addrs low table)
    (hcode : platform.code m.eip = some (.int syscallInt, next))
    (hlevel : m.cpl = 3)
    (hlow : low + room + 48 ≤ platform.esp0.toNat)
    (htable : HoldsJumpTable table handlers m.mem)
    (hparams : spec.params = 3)
    (hf : 1 ≤ (m.regs .eax).toInt → (m.regs .eax).toInt ≤ 10 →
      ∃ f, (0 :: handlers)[(m.regs .eax).toNat]? = some f ∧
        platform.Implements (.kernel low platform.esp0.toNat spec.params) room
          f spec)
    (hwrites : Disjoint (spec.writes (syscallArgs m))
      (Set.Ico low platform.esp0.toNat)) :
    ∃ m', platform.Runs m m' ∧
      if 1 ≤ (m.regs .eax).toInt ∧ (m.regs .eax).toInt ≤ 10 then
        SyscallReturned platform low spec m next m'
      else m'.eip = next ∧ m'.eflags = m.eflags ∧ m'.seg = m.seg ∧
        m'.regs = Function.update m.regs .eax (-1) ∧
        Set.EqOn m'.mem m.mem (Set.Ico low platform.esp0.toNat)ᶜ := by
  by_cases hnumber : 1 ≤ (m.regs .eax).toInt ∧ (m.regs .eax).toInt ≤ 10
  · obtain ⟨f, hget, hf⟩ := hf hnumber.1 hnumber.2
    obtain ⟨m', hruns, hreturned⟩ := syscall_returned hkernel hcode hlevel hlow
      htable hnumber.1 hnumber.2 hget hf hparams hwrites
    refine ⟨m', hruns, ?_⟩
    rw [if_pos hnumber]
    exact hreturned
  · obtain ⟨m', hruns, heip, hflags, hseg, hregs, hmem⟩ :=
      syscall_invalid hkernel hcode hlevel (by omega) hnumber
    refine ⟨m', hruns, ?_⟩
    rw [if_neg hnumber]
    refine ⟨heip, hflags, hseg, hregs, hmem.mono ?_⟩
    apply Set.compl_subset_compl.mpr
    apply Set.Ico_subset_Ico_left
    omega

theorem syscall_round_trip_sample :
    ∃ m', samplePlatform.Runs sampleCaller m' ∧
      if 1 ≤ (sampleCaller.regs .eax).toInt ∧
          (sampleCaller.regs .eax).toInt ≤ 10 then
        SyscallReturned samplePlatform sampleLow (.constant 3 7) sampleCaller 6
          m'
      else m'.eip = 6 ∧ m'.eflags = sampleCaller.eflags ∧
        m'.seg = sampleCaller.seg ∧
        m'.regs = Function.update sampleCaller.regs .eax (-1) ∧
        Set.EqOn m'.mem sampleCaller.mem
          (Set.Ico sampleLow samplePlatform.esp0.toNat)ᶜ :=
  syscall_round_trip samplePlatform_kernel rfl rfl
    (show sampleLow + 0 + 48 ≤ samplePlatform.esp0.toNat by decide)
    sampleMemory_table rfl
    (fun _ _ => ⟨30, rfl, sampleHandlers_implement _ 0 3⟩)
    (Set.empty_disjoint _)

end Valid

end Entry

end PsychOS
