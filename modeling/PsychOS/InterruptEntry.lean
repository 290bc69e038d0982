/-
Interrupts that a program does not ask for: the wrappers of the device
handlers, which a program does not notice, and the entries of the exceptions,
which collect the parameters of `exception_handler`.
-/
import PsychOS.InterruptTable
import PsychOS.Lib.CallingConvention

namespace PsychOS

/-- The registers besides the stack pointer, as the wrappers push them. -/
def pushedRegs : List Reg := [.ebp, .edi, .esi, .edx, .ecx, .ebx, .eax]

/-- The macro `interrupt_handler`: the wrapper of a device handler. -/
def interruptHandler (funcName : BitVec 32) : List Instr :=
  [ .op (.pushReg .esp),
    .op (.pushReg .ebp), .op (.pushReg .edi), .op (.pushReg .esi),
    .op (.pushReg .edx), .op (.pushReg .ecx), .op (.pushReg .ebx),
    .op (.pushReg .eax), .op .cld,
    .call funcName,
    .op (.popReg .eax), .op (.popReg .ebx), .op (.popReg .ecx),
    .op (.popReg .edx), .op (.popReg .esi), .op (.popReg .edi),
    .op (.popReg .ebp),
    .op (.popReg .esp),
    .iret ]

/-- `common_exception_wrapper`. -/
def commonExceptionWrapper (exceptionHandler : BitVec 32) : List Instr :=
  [ .op (.pushReg .esp),
    .op (.pushReg .ebp), .op (.pushReg .edi), .op (.pushReg .esi),
    .op (.pushReg .edx), .op (.pushReg .ecx), .op (.pushReg .ebx),
    .op (.pushReg .eax), .op .cld,
    .call exceptionHandler,
    .op (.popReg .eax), .op (.popReg .ebx), .op (.popReg .ecx),
    .op (.popReg .edx), .op (.popReg .esi), .op (.popReg .edi),
    .op (.popReg .ebp),
    .op (.popReg .esp),
    .op (.addImm .esp 8),
    .iret ]

/-- The vectors whose entry is made with `error_code_exception_handler`. -/
def errorCodeHandlers : List Nat := [8, 10, 11, 12, 13, 14, 17, 30]

/-- The entry of an exception: without an error code from the processor, a zero
takes its place. -/
def exceptionEntry (num : Nat) (common : BitVec 32) : List Instr :=
  if num ∈ errorCodeHandlers then
    [.op (.pushImm (BitVec.ofNat 32 num)), .jmp common]
  else
    [.op (.pushImm 0), .op (.pushImm (BitVec.ofNat 32 num)), .jmp common]

/-- `has_error_code`, which `exception_handler` consults. -/
def hasErrorCode : List Nat :=
  [ 0, 0, 0, 0, 0, 0, 0, 0,
    1, 0, 1, 1, 1, 1, 1, 0,
    0, 1, 0, 0, 0, 0, 0, 0,
    0, 0, 0, 0, 0, 0, 1, 0 ]

/-- The entries agree with it. -/
theorem hasErrorCode_iff : ∀ num < 32,
    hasErrorCode[num]? = some (if num ∈ errorCodeHandlers then 1 else 0) := by
  decide

section Sample

/-- A device handler that does nothing. -/
def idleHandler : List Instr := [.op (.movImm .eax 0), .ret]

/-- A wrapper with its handler, the entry of general protection faults, and a
user program that raises the interrupt of the keyboard. -/
def trapCode : List Instr :=
  interruptHandler 19 ++ idleHandler ++ exceptionEntry 13 23 ++
    commonExceptionWrapper 44 ++ [.int 0x21]

def trapAddresses : HandlerAddresses where
  interruptHandler := fun _ => 21
  nullInterruptHandler := 0
  syscallHandlerWrapper := 0
  keyboardHandlerWrapper := 0
  rtcHandlerWrapper := 0
  pitHandlerWrapper := 0

def trapPlatform : Platform where
  code := Platform.laidOut trapCode
  idt := fun vector => {
    offset := trapAddresses.handler vector
    selector := kernelCs.setWidth 32
    present := true
    dpl := if vector = syscallInt then 3 else 0 }
  esp0 := 0x800000
  ss0 := 0x18

def trapProgram : Machine where
  regs := fun r => if r = .esp then 0x83FFF00 else 0
  seg := fun s => if s = .cs then 0x23 else 0x2B
  eip := 43
  eflags := 0x202
  mem := fun _ => 0

theorem trapPlatform_idt : trapPlatform.UsesIdt trapAddresses :=
  ⟨fun _ => exceptionHandleDesc 0 0 0, fun vector =>
    decodeGate_setUpIdt trapAddresses _ vector⟩

theorem trapPlatform_entry :
    trapPlatform.Placed 21 (exceptionEntry 13 23) 23 :=
  Platform.placed_laidOut trapCode (interruptHandler 19 ++ idleHandler) _
    (commonExceptionWrapper 44 ++ [.int 0x21]) rfl rfl (by decide)

theorem trapPlatform_common :
    trapPlatform.Placed 23 (commonExceptionWrapper 44) 43 :=
  Platform.placed_laidOut trapCode
    (interruptHandler 19 ++ idleHandler ++ exceptionEntry 13 23) _
    [.int 0x21] rfl rfl (by decide)

end Sample

section Device

variable {platform : Platform} {m d : Machine}
  {spec : CallSpec} {low high room : Nat} {func last : BitVec 32}

/-- After the first push of a wrapper. -/
def Machine.espPushed (d : Machine) (eip : BitVec 32) : Machine :=
  (d.push (d.regs .esp)).goto eip

theorem espPushed_esp (d : Machine) (eip : BitVec 32)
    (hroom : 4 ≤ (d.regs .esp).toNat) :
    ((d.espPushed eip).regs .esp).toNat = (d.regs .esp).toNat - 4 := by
  simp only [Machine.espPushed, Machine.push, Machine.goto,
    Function.update_self]
  exact toNat_sub_four hroom

theorem espPushed_mem (d : Machine) (eip : BitVec 32)
    (hroom : 4 ≤ (d.regs .esp).toNat) :
    Set.EqOn (d.espPushed eip).mem d.mem
      (Set.Ico ((d.regs .esp).toNat - 4) (d.regs .esp).toNat)ᶜ :=
  @Machine.pushAll_mem d [d.regs .esp]
    (by rw [List.length_singleton]; omega)

section Stages

variable {d₁ m₁ : Machine} {save call after pop : BitVec 32}

/-- The part of a wrapper between the first push and the last pop: the handler
runs, and all registers are as they were. -/
theorem runs_pushedRegs_call
    (hsave : platform.Placed d₁.eip ((saveRegs pushedRegs).map .op) call)
    (hcall : platform.code call = some (.call func, after))
    (hrestore : platform.Placed after ((restoreRegs pushedRegs).map .op) pop)
    (hlevel : d₁.cpl = 0)
    (hlow : low + room + 32 ≤ (d₁.regs .esp).toNat)
    (hhigh : (d₁.regs .esp).toNat ≤ high)
    (hfunc : platform.Implements (.kernel low high spec.params) room func spec)
    (hparams : spec.params = 0)
    (hwrites : Disjoint (spec.writes []) (Set.Ico low high)) :
    ∃ m₁ value, platform.Runs d₁ m₁ ∧ m₁.eip = pop ∧ m₁.regs = d₁.regs ∧
      m₁.seg = d₁.seg ∧
      (∃ entered, Set.EqOn entered d₁.mem
          (Set.Ico low (d₁.regs .esp).toNat)ᶜ ∧
        spec.result [] entered value m₁.mem) ∧
      Set.EqOn m₁.mem d₁.mem (Set.Ico low (d₁.regs .esp).toNat ∪
        spec.writes [])ᶜ := by
  have hlength : pushedRegs.length = 7 := rfl
  have hargs : savedArgs pushedRegs spec.params d₁ = [] := by
    rw [hparams]
    rfl
  have hstep : platform.step (d₁.saving pushedRegs call) =
      some (d₁.calling pushedRegs call after func) := by
    have hcode : platform.code (d₁.saving pushedRegs call).eip =
        some (.call func, after) := hcall
    rw [Platform.step, hcode]
    rfl
  obtain ⟨m₁, value, hruns, heip, hseg, hesp, -, hsaved, hresult,
    hunchanged⟩ := runs_saved_call (by decide) (by decide) hsave hstep hrestore
      hfunc rfl hlevel (by decide) (by rw [hparams]; exact Nat.zero_le _)
      (by omega) hhigh (by rwa [hargs])
  rw [hargs] at hunchanged hresult
  refine ⟨m₁, value, hruns, heip, ?_, hseg, hresult, hunchanged⟩
  funext r
  cases r with
  | eax => exact hsaved 0 .eax (by omega) rfl
  | ebx => exact hsaved 1 .ebx (by omega) rfl
  | ecx => exact hsaved 2 .ecx (by omega) rfl
  | edx => exact hsaved 3 .edx (by omega) rfl
  | esi => exact hsaved 4 .esi (by omega) rfl
  | edi => exact hsaved 5 .edi (by omega) rfl
  | ebp => exact hsaved 6 .ebp (by omega) rfl
  | esp => exact hesp

/-- The stack pointer that was pushed is still there. -/
theorem espPushed_top {writes : Set Nat}
    (hlow : low + 4 ≤ (d.regs .esp).toNat)
    (hhigh : (d.regs .esp).toNat ≤ high)
    (hwrites : Disjoint writes (Set.Ico low high))
    (hregs : m₁.regs = (d.espPushed save).regs)
    (hunchanged : Set.EqOn m₁.mem (d.espPushed save).mem
      (Set.Ico low ((d.espPushed save).regs .esp).toNat ∪ writes)ᶜ) :
    m₁.top = d.regs .esp := by
  have hword := (d.regs .esp).isLt
  have hesp := espPushed_esp d save (by omega)
  have hpushed : loadWord (d.espPushed save).mem
      ((d.espPushed save).regs .esp) = d.regs .esp := by
    have hempty : d.Stack [] := trivial
    exact (hempty.push (by decide) (d.regs .esp)).1
  rw [Machine.top, hregs, ← hpushed]
  apply loadWord_congr (by omega)
  apply (eqOn_stack_above hunchanged hwrites (by omega)).mono
  exact Set.Ico_subset_Ico_right (by omega)

/-- Popping it gives back all registers. -/
theorem espPopped_regs (hregs : m₁.regs = (d.espPushed save).regs)
    (htop : m₁.top = d.regs .esp) :
    ((Op.popReg .esp).exec m₁).regs = d.regs := by
  show Function.update (Function.update m₁.regs .esp _) .esp m₁.top = _
  rw [htop, Function.update_idem, hregs]
  show Function.update (Function.update d.regs .esp _) .esp (d.regs .esp) = _
  rw [Function.update_idem, Function.update_eq_self]

end Stages

/-- The wrapper of a device handler up to its return: all registers are as they
were. -/
theorem runs_interruptHandler
    (hwrapper : platform.Placed d.eip (interruptHandler func) last)
    (hlevel : d.cpl = 0)
    (hlow : low + room + 36 ≤ (d.regs .esp).toNat)
    (hhigh : (d.regs .esp).toNat ≤ high)
    (hfunc : platform.Implements (.kernel low high spec.params) room func spec)
    (hparams : spec.params = 0)
    (hwrites : Disjoint (spec.writes []) (Set.Ico low high)) :
    ∃ m' value entered iret, platform.Runs d m' ∧ m'.eip = iret ∧
      platform.code iret = some (.iret, last) ∧
      m'.regs = d.regs ∧ m'.seg = d.seg ∧
      Set.EqOn entered d.mem (Set.Ico low (d.regs .esp).toNat)ᶜ ∧
      spec.result [] entered value m'.mem ∧
      Set.EqOn m'.mem d.mem (Set.Ico low (d.regs .esp).toNat ∪
        spec.writes [])ᶜ := by
  obtain ⟨save, hpush, hrest⟩ :=
    Platform.Placed.append [.op (.pushReg .esp)] hwrapper
  obtain ⟨call, hsave, hrest⟩ := Platform.Placed.append
    ((saveRegs pushedRegs).map .op) hrest
  obtain ⟨after, hcall, hrest⟩ := hrest
  obtain ⟨pop, hrestore, iretFrom, hpop, behind, hiret, rfl⟩ :=
    Platform.Placed.append ((restoreRegs pushedRegs).map .op) hrest
  let d₁ := d.espPushed save
  have hruns₁ : platform.Runs d d₁ :=
    @Platform.runs_ops platform d [.pushReg .esp] _ _ hpush rfl
  have hesp₁ : (d₁.regs .esp).toNat = (d.regs .esp).toNat - 4 :=
    espPushed_esp d save (by omega)
  have hmem₁ := espPushed_mem d save (by omega)
  obtain ⟨m₁, value, hruns₂, heip, hregs₁, hseg, ⟨entered, hsame, hresult⟩,
    hunchanged⟩ := @runs_pushedRegs_call platform spec low high room func d₁
      call after pop hsave hcall hrestore hlevel (by omega) (by omega) hfunc
      hparams hwrites
  have htop : m₁.top = d.regs .esp :=
    espPushed_top (by omega) hhigh hwrites hregs₁ hunchanged
  have hruns₃ := @Platform.runs_ops platform m₁ [.popReg .esp] pop iretFrom
    ⟨iretFrom, hpop, rfl⟩ heip
  have hstack : Set.Ico low (d₁.regs .esp).toNat ⊆
      Set.Ico low (d.regs .esp).toNat :=
    Set.Ico_subset_Ico_right (by omega)
  -- The word of the first push is on the part of the stack that may change.
  have hpushed : Set.Ico ((d.regs .esp).toNat - 4) (d.regs .esp).toNat ⊆
      Set.Ico low (d.regs .esp).toNat :=
    Set.Ico_subset_Ico_left (by omega)
  refine ⟨_, value, entered, iretFrom, hruns₁.trans (hruns₂.trans hruns₃), rfl,
    hiret, espPopped_regs hregs₁ htop, hseg, ?_, hresult, ?_⟩
  · exact eqOn_compl_trans hsame hmem₁ hstack hpushed
  · exact eqOn_compl_trans hunchanged hmem₁
      (Set.union_subset_union_left _ hstack)
      (hpushed.trans Set.subset_union_left)

/-- A device interrupt whose driver returns on the same stack, as a tick that
switches to another process does not, is not noticed by the code it interrupts,
in the kernel or in a user program: every register and flag, the segments and
the place are as before, and memory too but for what the driver itself writes
and the unused part of the kernel stack. -/
theorem device_interrupt_transparent {addrs : HandlerAddresses}
    {vector : BitVec 8} (hidt : platform.UsesIdt addrs)
    (hwrapper : platform.Placed (addrs.handler vector) (interruptHandler func)
      last)
    (hlevels : m.cpl = 0 ∨ m.cpl = 3)
    (hlow : low + room + 56 ≤ (platform.entryEsp m).toNat)
    (hhigh : (platform.entryEsp m).toNat ≤ high)
    (hfunc : platform.Implements (.kernel low high spec.params) room func spec)
    (hparams : spec.params = 0)
    (hwrites : Disjoint (spec.writes []) (Set.Ico low high)) :
    ∃ m' value entered,
      platform.Runs (platform.deliver (platform.idt vector) none m.eip m) m' ∧
      m'.regs = m.regs ∧ m'.seg = m.seg ∧ m'.eip = m.eip ∧
      m'.eflags = m.eflags ∧
      Set.EqOn entered m.mem (Set.Ico low (platform.entryEsp m).toNat)ᶜ ∧
      spec.result [] entered value m'.mem ∧
      Set.EqOn m'.mem m.mem (Set.Ico low (platform.entryEsp m).toNat ∪
        spec.writes [])ᶜ := by
  let gate := platform.idt vector
  have hselector : gate.selector.toNat % 4 = 0 := hidt.selector vector
  have hoffset : gate.offset = addrs.handler vector := by
    show (platform.idt vector).offset = _
    rw [hidt.gate vector]
  rw [← hoffset] at hwrapper
  let d := platform.deliver gate none m.eip m
  obtain ⟨hregs, hseg⟩ := @Platform.deliver_regs platform m gate none m.eip
  have hlength : (Platform.entryWords m none m.eip).length ≤ 5 := by
    rw [Platform.entryWords_length]
    split <;> decide
  have hnat : (d.regs .esp).toNat = (platform.entryEsp m).toNat -
      4 * (Platform.entryWords m none m.eip).length := by
    show ((platform.deliver gate none m.eip m).regs .esp).toNat = _
    rw [hregs, Function.update_self]
    exact toNat_sub_words (by omega)
  have hmem := @Platform.deliver_mem platform m gate none m.eip (by omega)
  have hlevel : d.cpl = 0 := by
    show ((platform.deliver gate none m.eip m).seg .cs).toNat % 4 = 0
    rw [hseg, Function.update_self]
    exact hselector
  obtain ⟨m₁, value, entered, iret, hruns, heip, hiret, hregs₁, hseg₁, hsame,
    hresult, hunchanged⟩ := @runs_interruptHandler platform d spec low high room
      func last hwrapper hlevel (by omega) (by omega) hfunc hparams hwrites
  have hframe : Set.EqOn m₁.mem d.mem (Set.Ico ((platform.entryEsp m).toNat -
      4 * (Platform.entryWords m none m.eip).length)
      (platform.entryEsp m).toNat) := by
    rw [← hnat]
    apply (eqOn_stack_above hunchanged hwrites (by omega)).mono
    exact Set.Ico_subset_Ico_right hhigh
  have hstack : Set.Ico low (d.regs .esp).toNat ⊆
      Set.Ico low (platform.entryEsp m).toNat :=
    Set.Ico_subset_Ico_right (by omega)
  have hentry := @Set.Ico_subset_Ico_left Nat _ low _
    (platform.entryEsp m).toNat (show low ≤ (platform.entryEsp m).toNat -
      4 * (Platform.entryWords m none m.eip).length by omega)
  have hreturn := Platform.deliver_interruptReturn hselector hlevels (by omega)
    hseg₁ (congrFun hregs₁ .esp) hframe
  have hstep : platform.step m₁ = some m₁.interruptReturn := by
    rw [Platform.step, heip, hiret]
    rfl
  refine ⟨m₁.interruptReturn, value, entered,
    hruns.trans (Platform.runs_step hstep), ?_⟩
  rw [hreturn]
  refine ⟨?_, rfl, rfl, rfl, ?_, hresult, ?_⟩
  · show Function.update m₁.regs .esp (m.regs .esp) = m.regs
    rw [hregs₁]
    show Function.update (platform.deliver gate none m.eip m).regs .esp
      (m.regs .esp) = m.regs
    rw [hregs, Function.update_idem, Function.update_eq_self]
  · exact eqOn_compl_trans hsame hmem hstack hentry
  · exact eqOn_compl_trans hunchanged hmem
      (Set.union_subset_union_left _ hstack)
      (hentry.trans Set.subset_union_left)

theorem device_interrupt_transparent_sample :
    ∃ m' value entered,
      trapPlatform.Runs (trapPlatform.deliver
        (trapPlatform.idt (irqIntNum keyboardIrq)) none trapProgram.eip
        trapProgram) m' ∧
      m'.regs = trapProgram.regs ∧ m'.seg = trapProgram.seg ∧
      m'.eip = trapProgram.eip ∧ m'.eflags = trapProgram.eflags ∧
      Set.EqOn entered trapProgram.mem
        (Set.Ico 0x7FE000 (trapPlatform.entryEsp trapProgram).toNat)ᶜ ∧
      (CallSpec.constant 0 0).result [] entered value m'.mem ∧
      Set.EqOn m'.mem trapProgram.mem
        (Set.Ico 0x7FE000 (trapPlatform.entryEsp trapProgram).toNat ∪
          (CallSpec.constant 0 0).writes [])ᶜ := by
  have hwrapper := @Platform.placed_laidOut trapPlatform trapCode []
    (interruptHandler 19) (idleHandler ++ exceptionEntry 13 23 ++
      commonExceptionWrapper 44 ++ [.int 0x21]) rfl rfl (by decide)
  have hidle := @Platform.placed_laidOut trapPlatform trapCode
    (interruptHandler 19) idleHandler (exceptionEntry 13 23 ++
      commonExceptionWrapper 44 ++ [.int 0x21]) rfl rfl (by decide)
  exact device_interrupt_transparent trapPlatform_idt hwrapper (.inr rfl)
    (show 0x7FE000 + 0 + 56 ≤ 0x800000 by decide)
    (show 0x800000 ≤ 0x800000 by decide)
    (constant_implements hidle _ 0 0) rfl (Set.empty_disjoint _)

end Device

section Exception

variable {platform : Platform} {m d : Machine} {addrs : HandlerAddresses}
  {num : Nat} {common handler last : BitVec 32}

/-- The entry leaves the number and an error code on the stack. -/
theorem runs_exceptionEntry {error : Option (BitVec 32)}
    {words : List (BitVec 32)}
    (hentry : platform.Placed d.eip (exceptionEntry num common) last)
    (hcode : error.isSome ↔ num ∈ errorCodeHandlers)
    (hstack : d.Stack (error.toList ++ words))
    (hroom : words.length + 3 ≤ maxStackWords) :
    ∃ d', platform.Runs d d' ∧ d'.eip = common ∧ d'.seg = d.seg ∧
      d'.Stack (BitVec.ofNat 32 num :: error.getD 0 :: words) ∧
      d'.regs = Function.update d.regs .esp (d.regs .esp - 4 *
        BitVec.ofNat 32 (2 - error.toList.length)) ∧
      (8 ≤ (d.regs .esp).toNat → Set.EqOn d'.mem d.mem
        (Set.Ico ((d.regs .esp).toNat - 8) (d.regs .esp).toNat)ᶜ) := by
  have hjump : ∀ {d' : Machine} {jump : BitVec 32}, d'.eip = jump →
      platform.code jump = some (.jmp common, last) →
      platform.Runs d' (d'.goto common) := by
    intro d' jump heip hjump
    apply Platform.runs_step
    rw [Platform.step, heip, hjump]
    rfl
  have hmem : ∀ values : List (BitVec 32), values.length ≤ 2 →
      8 ≤ (d.regs .esp).toNat → Set.EqOn (d.pushAll values).mem d.mem
        (Set.Ico ((d.regs .esp).toNat - 8) (d.regs .esp).toNat)ᶜ := by
    intro values hlength hesp a ha
    apply Machine.pushAll_mem (by omega)
    rw [Set.mem_compl_iff, Set.mem_Ico] at ha ⊢
    omega
  rw [exceptionEntry] at hentry
  cases error with
  | none =>
      have hnum : num ∉ errorCodeHandlers := fun h => by
        cases hcode.mpr h
      rw [if_neg hnum] at hentry
      obtain ⟨jump, hpush, behind, hjmp, rfl⟩ := Platform.Placed.append
        ([.pushImm 0, .pushImm (BitVec.ofNat 32 num)].map .op) hentry
      let values := [0, BitVec.ofNat 32 num]
      have hruns : platform.Runs d ((d.pushAll values).goto jump) :=
        Platform.runs_ops hpush rfl
      refine ⟨(d.pushAll values).goto common, hruns.trans (hjump rfl hjmp),
        rfl, (Machine.pushAll_eq values d).2.1, ?_, ?_,
        hmem values (show 2 ≤ 2 by decide)⟩
      · exact hstack.pushAll values (by
          show 2 + words.length ≤ _
          omega)
      · exact (Machine.pushAll_eq values d).1
  | some code =>
      have hnum : num ∈ errorCodeHandlers := hcode.mp rfl
      rw [if_pos hnum] at hentry
      obtain ⟨jump, hpush, behind, hjmp, rfl⟩ := Platform.Placed.append
        ([.pushImm (BitVec.ofNat 32 num)].map .op) hentry
      let values := [BitVec.ofNat 32 num]
      have hruns : platform.Runs d ((d.pushAll values).goto jump) :=
        Platform.runs_ops hpush rfl
      refine ⟨(d.pushAll values).goto common, hruns.trans (hjump rfl hjmp),
        rfl, (Machine.pushAll_eq values d).2.1, ?_, ?_,
        hmem values (show 1 ≤ 2 by decide)⟩
      · exact hstack.pushAll values (by
          show 1 + (words.length + 1) ≤ _
          omega)
      · exact (Machine.pushAll_eq values d).1

/-- The common wrapper calls `exception_handler` with the registers on top of
what is on the stack. -/
theorem runs_commonExceptionWrapper {words : List (BitVec 32)}
    (hcommon : platform.Placed d.eip (commonExceptionWrapper handler) last)
    (hstack : d.Stack words) (hroom : words.length + 9 ≤ maxStackWords) :
    ∃ d' back, platform.Runs d d' ∧ d'.eip = handler ∧ d'.cpl = d.cpl ∧
      d'.Stack (back :: d.regs .eax :: d.regs .ebx :: d.regs .ecx ::
        d.regs .edx :: d.regs .esi :: d.regs .edi :: d.regs .ebp ::
        d.regs .esp :: words) ∧
      (36 ≤ (d.regs .esp).toNat → Set.EqOn d'.mem d.mem
        (Set.Ico ((d.regs .esp).toNat - 36) (d.regs .esp).toNat)ᶜ) := by
  obtain ⟨save, hpush, hrest⟩ :=
    Platform.Placed.append [.op (.pushReg .esp)] hcommon
  obtain ⟨call, hsave, hrest⟩ := Platform.Placed.append
    ((saveRegs pushedRegs).map .op) hrest
  obtain ⟨after, hcall, -⟩ := hrest
  let d₁ := d.espPushed save
  have hlength : pushedRegs.length = 7 := rfl
  have hruns₁ : platform.Runs d d₁ :=
    @Platform.runs_ops platform d [.pushReg .esp] _ _ hpush rfl
  have hstack₁ : d₁.Stack (d.regs .esp :: words) :=
    hstack.push (by omega) (d.regs .esp)
  have hruns₂ : platform.Runs d₁ (d₁.saving pushedRegs call) :=
    runs_saving (by decide) hsave rfl
  have hstep : platform.step (d₁.saving pushedRegs call) =
      some (d₁.calling pushedRegs call after handler) := by
    have hcode : platform.code (d₁.saving pushedRegs call).eip =
        some (.call handler, after) := hcall
    rw [Platform.step, hcode]
    rfl
  refine ⟨d₁.calling pushedRegs call after handler, after,
    hruns₁.trans (hruns₂.trans (Platform.runs_step hstep)), rfl,
    calling_cpl call after handler, ?_, ?_⟩
  · exact calling_stack hstack₁ call after handler (by
      rw [hlength, List.length_cons]
      omega)
  · intro hesp a ha
    have hesp₁ := espPushed_esp d save (by omega)
    rw [Set.mem_compl_iff, Set.mem_Ico] at ha
    have hcalling := @calling_mem_caller pushedRegs d₁
      ((d.regs .esp).toNat - 36) call after handler
      (by rw [hesp₁, hlength]; omega)
    rw [hcalling ?_]
    · apply @Machine.pushAll_mem d [d.regs .esp]
        (by rw [List.length_singleton]; omega)
      rw [List.length_singleton, Set.mem_compl_iff, Set.mem_Ico]
      omega
    · rw [hesp₁, Set.mem_compl_iff, Set.mem_Ico]
      omega

/-- The parameters of `exception_handler`.  All but the stack pointer, which is
that of the entry, are from the interrupted code. -/
def exceptionParameters (platform : Platform) (num : Nat)
    (error : Option (BitVec 32)) (eip : BitVec 32) (m : Machine) :
    List (BitVec 32) :=
  [ m.regs .eax, m.regs .ebx, m.regs .ecx, m.regs .edx, m.regs .esi,
    m.regs .edi, m.regs .ebp,
    platform.entryEsp m - (if m.cpl = 3 then 28 else 20),
    BitVec.ofNat 32 num, error.getD 0, eip, m.seg .cs, m.eflags ]

/-- From the gate of an exception to `exception_handler`. -/
theorem runs_delivered_exception {gate : Gate} {error : Option (BitVec 32)}
    {back behind : BitVec 32} (hselector : gate.selector.toNat % 4 = 0)
    (hentry : platform.Placed gate.offset (exceptionEntry num common) last)
    (hcommon : platform.Placed common (commonExceptionWrapper handler) behind)
    (hcode : error.isSome ↔ num ∈ errorCodeHandlers)
    (hroom : 64 ≤ (platform.entryEsp m).toNat) :
    ∃ m' ret, platform.Runs (platform.deliver gate error back m) m' ∧
      m'.eip = handler ∧ m'.cpl = 0 ∧
      m'.Stack (ret :: exceptionParameters platform num error back m) ∧
      Set.EqOn m'.mem m.mem (Set.Ico ((platform.entryEsp m).toNat - 64)
        (platform.entryEsp m).toNat)ᶜ := by
  let d := platform.deliver gate error back m
  obtain ⟨hregs, hseg⟩ := @Platform.deliver_regs platform m gate error back
  have hlength := Platform.entryWords_length m error back
  have herror : error.toList.length ≤ 1 := by cases error <;> simp
  have hstack : d.Stack (error.toList ++ m.frame back []) :=
    Platform.deliver_stack trivial (by decide)
  have hframe : (m.frame back []).length ≤ 5 := by
    rw [Machine.frame]
    split <;> simp
  have hnat : (d.regs .esp).toNat = (platform.entryEsp m).toNat -
      4 * (Platform.entryWords m error back).length := by
    show ((platform.deliver gate error back m).regs .esp).toNat = _
    rw [hregs, Function.update_self]
    exact toNat_sub_words (by rw [hlength]; split <;> omega)
  obtain ⟨d₁, hruns₁, heip₁, hseg₁, hstack₁, hregs₁, hmem₁⟩ :=
    @runs_exceptionEntry platform d num common last error _ hentry hcode hstack
      (by
      show _ ≤ 2 ^ 28
      omega)
  obtain ⟨d₂, ret, hruns₂, heip₂, hcpl₂, hstack₂, hmem₂⟩ :=
    runs_commonExceptionWrapper (by rwa [heip₁]) hstack₁ (by
      show _ ≤ 2 ^ 28
      rw [List.length_cons, List.length_cons]
      omega)
  have hesp₁ : d₁.regs .esp =
      platform.entryEsp m - (if m.cpl = 3 then 28 else 20) := by
    rw [hregs₁, Function.update_self]
    show (platform.deliver gate error back m).regs .esp - _ = _
    rw [hregs, Function.update_self, hlength, BitVec.sub_sub]
    cases error <;> split <;> rfl
  have hother : ∀ r, r ≠ .esp → d₁.regs r = m.regs r := by
    intro r hr
    rw [hregs₁, Function.update_of_ne hr]
    show (platform.deliver gate error back m).regs r = m.regs r
    rw [hregs, Function.update_of_ne hr]
  refine ⟨d₂, ret, hruns₁.trans hruns₂, heip₂, ?_, ?_, ?_⟩
  · rw [hcpl₂, Machine.cpl, hseg₁]
    show ((platform.deliver gate error back m).seg .cs).toNat % 4 = 0
    rw [hseg, Function.update_self]
    exact hselector
  · rw [hesp₁, hother .eax (by decide), hother .ebx (by decide),
      hother .ecx (by decide), hother .edx (by decide),
      hother .esi (by decide), hother .edi (by decide),
      hother .ebp (by decide)] at hstack₂
    exact @StackAt.of_append d₂.mem (d₂.regs .esp) _
      (if m.cpl = 3 then [m.regs .esp, m.seg .ss] else []) hstack₂
  · have hsize : (if m.cpl = 3 then 5 else 3) ≤ 5 := by split <;> decide
    have hnat₁ : (d₁.regs .esp).toNat = (platform.entryEsp m).toNat -
        (4 * (if m.cpl = 3 then 5 else 3) + 8) := by
      rw [hesp₁]
      split
      · exact @toNat_sub_words (platform.entryEsp m) 7 (by omega)
      · exact @toNat_sub_words (platform.entryEsp m) 5 (by omega)
    have hmem := @Platform.deliver_mem platform m gate error back
      (by rw [hlength]; omega)
    rw [hlength] at hnat hmem
    generalize (if m.cpl = 3 then 5 else 3) = size at hsize hnat hnat₁ hmem
    intro a ha
    rw [Set.mem_compl_iff, Set.mem_Ico] at ha
    rw [hmem₂ (by omega) ?_, hmem₁ (by omega) ?_, hmem ?_]
    · rw [Set.mem_compl_iff, Set.mem_Ico]
      omega
    · rw [Set.mem_compl_iff, Set.mem_Ico]
      omega
    · rw [Set.mem_compl_iff, Set.mem_Ico]
      omega

/-- Every exception of the kernel or of a user program comes to
`exception_handler` with the thirteen parameters it has: the registers, the
number of the exception, its error code or zero, and where it happened. -/
theorem exception_reaches_handler {error : Option (BitVec 32)}
    {behind : BitVec 32} (hidt : platform.UsesIdt addrs) (hnum : num < 32)
    (hentry : platform.Placed (addrs.interruptHandler num)
      (exceptionEntry num common) last)
    (hcommon : platform.Placed common (commonExceptionWrapper handler) behind)
    (hcode : error.isSome ↔ hasErrorCode[num]? = some 1)
    (hroom : 64 ≤ (platform.entryEsp m).toNat) :
    ∃ m' ret, platform.Runs
        (platform.deliver (platform.idt (BitVec.ofNat 8 num)) error m.eip m)
        m' ∧
      m'.eip = handler ∧ m'.cpl = 0 ∧
      m'.Stack (ret :: exceptionParameters platform num error m.eip m) ∧
      Set.EqOn m'.mem m.mem (Set.Ico ((platform.entryEsp m).toNat - 64)
        (platform.entryEsp m).toNat)ᶜ := by
  rw [← hidt.exception_offset hnum] at hentry
  have hpushed : error.isSome ↔ num ∈ errorCodeHandlers := by
    rw [hcode, hasErrorCode_iff num hnum]
    by_cases hmem : num ∈ errorCodeHandlers <;> simp [hmem]
  exact runs_delivered_exception (hidt.selector _) hentry hcommon hpushed hroom

theorem exception_reaches_handler_sample :
    ∃ m' ret, trapPlatform.Runs (trapPlatform.deliver
        (trapPlatform.idt (BitVec.ofNat 8 13)) (some 0) trapProgram.eip
        trapProgram) m' ∧
      m'.eip = 44 ∧ m'.cpl = 0 ∧
      m'.Stack (ret :: exceptionParameters trapPlatform 13 (some 0)
        trapProgram.eip trapProgram) ∧
      Set.EqOn m'.mem trapProgram.mem
        (Set.Ico ((trapPlatform.entryEsp trapProgram).toNat - 64)
          (trapPlatform.entryEsp trapProgram).toNat)ᶜ :=
  exception_reaches_handler trapPlatform_idt (by decide) trapPlatform_entry
    trapPlatform_common (by decide) (by decide)

/-- A user program that raises an interrupt other than that of system calls
comes to `exception_handler` as for a general protection fault at that very
instruction, whatever the vector is for. -/
theorem user_interrupt_faults {vector : BitVec 8} {next behind : BitVec 32}
    (hidt : platform.UsesIdt addrs)
    (hentry : platform.Placed (addrs.interruptHandler 13)
      (exceptionEntry 13 common) last)
    (hcommon : platform.Placed common (commonExceptionWrapper handler) behind)
    (hcode : platform.code m.eip = some (.int vector, next))
    (hlevel : m.cpl = 3) (hvector : vector ≠ syscallInt)
    (hroom : 64 ≤ platform.esp0.toNat) :
    ∃ m' ret, platform.Runs m m' ∧ m'.eip = handler ∧ m'.cpl = 0 ∧
      m'.Stack (ret :: exceptionParameters platform 13
        (some (BitVec.ofNat 32 (8 * vector.toNat + 2))) m.eip m) ∧
      Set.EqOn m'.mem m.mem
        (Set.Ico (platform.esp0.toNat - 64) platform.esp0.toNat)ᶜ := by
  have hesp : platform.entryEsp m = platform.esp0 := if_pos hlevel
  have hstep : platform.step m = some (platform.deliver (platform.idt 13)
      (some (BitVec.ofNat 32 (8 * vector.toNat + 2))) m.eip m) := by
    rw [Platform.step, hcode]
    show some (platform.interrupt vector next m) = _
    rw [Platform.interrupt, if_neg]
    rintro ⟨-, hdpl⟩
    rw [hidt.gate, hlevel, if_neg hvector] at hdpl
    exact absurd (show 3 ≤ 0 from hdpl) (by decide)
  rw [← hidt.exception_offset (show 13 < numReservedVec by decide)] at hentry
  have hpushed : (some (BitVec.ofNat 32 (8 * vector.toNat + 2))).isSome ↔
      13 ∈ errorCodeHandlers := by
    simp [errorCodeHandlers]
  obtain ⟨m', ret, hruns, heip, hcpl, hstack, hmem⟩ :=
    runs_delivered_exception (hidt.selector _) hentry hcommon hpushed
      (by rwa [hesp])
  rw [hesp] at hmem
  exact ⟨m', ret, (Platform.runs_step hstep).trans hruns, heip, hcpl, hstack,
    hmem⟩

theorem user_interrupt_faults_sample :
    ∃ m' ret, trapPlatform.Runs trapProgram m' ∧ m'.eip = 44 ∧ m'.cpl = 0 ∧
      m'.Stack (ret :: exceptionParameters trapPlatform 13
        (some (BitVec.ofNat 32 (8 * (0x21 : BitVec 8).toNat + 2)))
        trapProgram.eip trapProgram) ∧
      Set.EqOn m'.mem trapProgram.mem
        (Set.Ico (trapPlatform.esp0.toNat - 64) trapPlatform.esp0.toNat)ᶜ :=
  user_interrupt_faults trapPlatform_idt trapPlatform_entry trapPlatform_common
    rfl rfl (by decide) (by decide)

end Exception

end PsychOS
