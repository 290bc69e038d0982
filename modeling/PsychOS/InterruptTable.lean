/-
The interrupt descriptor table as `entry` sets it up, down to the bits of its
descriptors, and what the processor reads there: every vector has a gate into
the kernel, and only that of system calls is open to user programs.
-/
import PsychOS.Lib.Ia32

namespace PsychOS

/-- `idt_desc_t`, in the order of its fields. -/
structure IdtDesc where
  offset1500 : BitVec 16
  segSelector : BitVec 16
  reserved4 : BitVec 8
  reserved3 : BitVec 1
  reserved2 : BitVec 1
  reserved1 : BitVec 1
  size : BitVec 1
  reserved0 : BitVec 1
  dpl : BitVec 2
  present : BitVec 1
  offset3116 : BitVec 16

/-- The packed bytes of a descriptor: each field follows the one before. -/
def IdtDesc.val (desc : IdtDesc) : BitVec 64 :=
  BitVec.ofNat 64 (desc.offset1500.toNat +
    desc.segSelector.toNat * 2 ^ 16 +
    desc.reserved4.toNat * 2 ^ 32 +
    desc.reserved3.toNat * 2 ^ 40 +
    desc.reserved2.toNat * 2 ^ 41 +
    desc.reserved1.toNat * 2 ^ 42 +
    desc.size.toNat * 2 ^ 43 +
    desc.reserved0.toNat * 2 ^ 44 +
    desc.dpl.toNat * 2 ^ 45 +
    desc.present.toNat * 2 ^ 47 +
    desc.offset3116.toNat * 2 ^ 48)

/-- A descriptor as the processor reads it.  Bits 40 to 44 give the kind, which
is that of a 32-bit interrupt gate here. -/
def decodeGate (val : BitVec 64) : Option Gate :=
  if val.extractLsb' 40 5 = 0b01110#5 then
    some {
      offset := val.extractLsb' 48 16 ++ val.extractLsb' 0 16
      selector := (val.extractLsb' 16 16).setWidth 32
      present := val.extractLsb' 47 1 = 1#1
      dpl := (val.extractLsb' 45 2).toNat }
  else none

def numReservedVec : Nat := 32
def numVec : Nat := 256
def kernelCs : BitVec 8 := 0x10
def privilegeKernel : BitVec 8 := 0
def privilegeUser : BitVec 8 := 3
def syscallInt : BitVec 8 := 0x80
def irqIntNum (num : BitVec 8) : BitVec 8 := 0x20 + num
def pitIrq : BitVec 8 := 0
def keyboardIrq : BitVec 8 := 1
def rtcIrq : BitVec 8 := 8

abbrev Idt := BitVec 8 → IdtDesc

/-- The descriptor made in `install_interrupt_handler`, with `SET_IDT_ENTRY` for
the offset. -/
def exceptionHandleDesc (handler : BitVec 32) (segSelector dpl : BitVec 8) :
    IdtDesc where
  offset3116 := ((handler &&& 0xFFFF0000) >>> 16).setWidth 16
  offset1500 := (handler &&& 0xFFFF).setWidth 16
  present := 1
  dpl := dpl.setWidth 2
  reserved0 := 0
  size := 1
  reserved1 := 1
  reserved2 := 1
  reserved3 := 0
  reserved4 := 0
  segSelector := segSelector.setWidth 16

def installInterruptHandler (interruptNum : BitVec 8) (handler : BitVec 32)
    (segSelector dpl : BitVec 8) (idt : Idt) : Idt :=
  Function.update idt interruptNum
    (exceptionHandleDesc handler segSelector dpl)

/-- Where the handlers are. -/
structure HandlerAddresses where
  interruptHandler : Nat → BitVec 32
  nullInterruptHandler : BitVec 32
  syscallHandlerWrapper : BitVec 32
  keyboardHandlerWrapper : BitVec 32
  rtcHandlerWrapper : BitVec 32
  pitHandlerWrapper : BitVec 32

/-- Install a handler at each of the vectors. -/
def installAll (vectors : List Nat) (handler : Nat → BitVec 32) (idt : Idt) :
    Idt :=
  vectors.foldl (fun idt i => installInterruptHandler (BitVec.ofNat 8 i)
    (handler i) kernelCs privilegeKernel idt) idt

/-- The part of `entry` that fills the table. -/
def setUpIdt (addrs : HandlerAddresses) (idt : Idt) : Idt :=
  let idt := installAll (List.range' numReservedVec (numVec - numReservedVec))
    (fun _ => addrs.nullInterruptHandler) idt
  let idt := installAll (List.range numReservedVec) addrs.interruptHandler idt
  let idt := installInterruptHandler syscallInt addrs.syscallHandlerWrapper
    kernelCs privilegeUser idt
  let idt := installInterruptHandler (irqIntNum keyboardIrq)
    addrs.keyboardHandlerWrapper kernelCs privilegeKernel idt
  let idt := installInterruptHandler (irqIntNum rtcIrq)
    addrs.rtcHandlerWrapper kernelCs privilegeKernel idt
  installInterruptHandler (irqIntNum pitIrq) addrs.pitHandlerWrapper kernelCs
    privilegeKernel idt

/-- The handler of a vector in the end. -/
def HandlerAddresses.handler (addrs : HandlerAddresses) (vector : BitVec 8) :
    BitVec 32 :=
  if vector = irqIntNum pitIrq then addrs.pitHandlerWrapper
  else if vector = irqIntNum rtcIrq then addrs.rtcHandlerWrapper
  else if vector = irqIntNum keyboardIrq then addrs.keyboardHandlerWrapper
  else if vector = syscallInt then addrs.syscallHandlerWrapper
  else if vector.toNat < numReservedVec then
    addrs.interruptHandler vector.toNat
  else addrs.nullInterruptHandler

/-- The fields are where the processor looks for them. -/
theorem val_fields (desc : IdtDesc) :
    desc.val.extractLsb' 0 16 = desc.offset1500 ∧
      desc.val.extractLsb' 16 16 = desc.segSelector ∧
      desc.val.extractLsb' 45 2 = desc.dpl ∧
      desc.val.extractLsb' 47 1 = desc.present ∧
      desc.val.extractLsb' 48 16 = desc.offset3116 ∧
      (desc.val.extractLsb' 40 5).toNat = desc.reserved3.toNat +
        desc.reserved2.toNat * 2 + desc.reserved1.toNat * 4 +
        desc.size.toNat * 8 + desc.reserved0.toNat * 16 := by
  have h₁ := desc.offset1500.isLt
  have h₂ := desc.segSelector.isLt
  have h₃ := desc.reserved4.isLt
  have h₄ := desc.reserved3.isLt
  have h₅ := desc.reserved2.isLt
  have h₆ := desc.reserved1.isLt
  have h₇ := desc.size.isLt
  have h₈ := desc.reserved0.isLt
  have h₉ := desc.dpl.isLt
  have h₁₀ := desc.present.isLt
  have h₁₁ := desc.offset3116.isLt
  refine ⟨?_, ?_, ?_, ?_, ?_, ?_⟩
  all_goals try apply BitVec.eq_of_toNat_eq
  all_goals
    rw [BitVec.extractLsb'_toNat, IdtDesc.val, BitVec.toNat_ofNat,
      Nat.shiftRight_eq_div_pow]
    omega

/-- The two halves that `SET_IDT_ENTRY` takes of an address. -/
theorem offset_halves (handler : BitVec 32) :
    ((handler &&& 0xFFFF0000) >>> 16).setWidth 16 ++
      (handler &&& 0xFFFF).setWidth 16 = handler := by
  have hhigh : ∀ i < 16,
      BitVec.getLsbD (0xFFFF0000 : BitVec 32) (16 + i) = true := by decide
  have hlow : ∀ i < 16, BitVec.getLsbD (0xFFFF : BitVec 32) i = true := by
    decide
  ext i hi
  rw [BitVec.getElem_append, ← BitVec.getLsbD_eq_getElem]
  by_cases hhalf : i < 16
  · rw [dif_pos hhalf, BitVec.getElem_setWidth, BitVec.getLsbD_and,
      hlow i hhalf, Bool.and_true]
  · rw [dif_neg hhalf, BitVec.getElem_setWidth, BitVec.getLsbD_ushiftRight,
      BitVec.getLsbD_and, hhigh (i - 16) (by omega), Bool.and_true,
      show 16 + (i - 16) = i by omega]

/-- The kind of the descriptors made here. -/
theorem exceptionHandleDesc_kind (handler : BitVec 32)
    (segSelector dpl : BitVec 8) :
    (exceptionHandleDesc handler segSelector dpl).val.extractLsb' 40 5 =
      0b01110#5 := by
  obtain ⟨-, -, -, -, -, hkind⟩ :=
    val_fields (exceptionHandleDesc handler segSelector dpl)
  apply BitVec.eq_of_toNat_eq
  rw [hkind]
  rfl

/-- The processor reads the gate that was meant. -/
theorem decodeGate_exceptionHandleDesc (handler : BitVec 32)
    (segSelector dpl : BitVec 8) :
    decodeGate (exceptionHandleDesc handler segSelector dpl).val = some {
      offset := handler
      selector := segSelector.setWidth 32
      present := true
      dpl := dpl.toNat % 4 } := by
  obtain ⟨hlow, hselector, hdpl, hpresent, hhigh, -⟩ :=
    val_fields (exceptionHandleDesc handler segSelector dpl)
  rw [decodeGate, if_pos (exceptionHandleDesc_kind ..), hlow, hselector, hdpl,
    hpresent, hhigh]
  simp only [exceptionHandleDesc, offset_halves, BitVec.toNat_setWidth]
  congr 2

/-- A loop over vectors installs at those and leaves the others. -/
theorem installAll_apply (vectors : List Nat) (handler : Nat → BitVec 32)
    (hvectors : ∀ i ∈ vectors, i < 256) (idt : Idt) (vector : BitVec 8) :
    installAll vectors handler idt vector =
      if vector.toNat ∈ vectors then
        exceptionHandleDesc (handler vector.toNat) kernelCs privilegeKernel
      else idt vector := by
  induction vectors generalizing idt with
  | nil => rfl
  | cons i rest ih =>
      have hi : i < 256 := hvectors i List.mem_cons_self
      have hnum : (BitVec.ofNat 8 i).toNat = i := by
        rw [BitVec.toNat_ofNat]
        omega
      have hrest := ih (fun j hj => hvectors j (List.mem_cons_of_mem i hj))
        (installInterruptHandler (BitVec.ofNat 8 i) (handler i) kernelCs
          privilegeKernel idt)
      refine hrest.trans ?_
      by_cases hmem : vector.toNat ∈ rest
      · rw [if_pos hmem, if_pos (List.mem_cons_of_mem i hmem)]
      · rw [if_neg hmem, installInterruptHandler]
        by_cases heq : vector = BitVec.ofNat 8 i
        · subst heq
          rw [Function.update_self, hnum, if_pos List.mem_cons_self]
        · have hne : vector.toNat ≠ i := by
            intro h
            apply heq
            rw [← h, BitVec.ofNat_toNat, BitVec.setWidth_eq]
          rw [Function.update_of_ne heq, if_neg]
          rw [List.mem_cons]
          rintro (h | h)
          · exact hne h
          · exact hmem h

/-- Every entry is set, and only that of system calls is for user programs. -/
theorem setUpIdt_apply (addrs : HandlerAddresses) (idt : Idt)
    (vector : BitVec 8) :
    setUpIdt addrs idt vector =
      exceptionHandleDesc (addrs.handler vector) kernelCs
        (if vector = syscallInt then privilegeUser else privilegeKernel) := by
  have hvector := vector.isLt
  have hlow : ∀ i ∈ List.range numReservedVec, i < 256 := by
    intro i hi
    rw [List.mem_range, numReservedVec] at hi
    omega
  have hhigh : ∀ i ∈ List.range' numReservedVec (numVec - numReservedVec),
      i < 256 := by
    intro i hi
    rw [List.mem_range'_1, numReservedVec, numVec] at hi
    omega
  rw [setUpIdt, HandlerAddresses.handler]
  by_cases hpit : vector = irqIntNum pitIrq
  · subst hpit
    rw [installInterruptHandler, Function.update_self, if_pos rfl,
      if_neg (by decide)]
  rw [installInterruptHandler, Function.update_of_ne hpit, if_neg hpit]
  by_cases hrtc : vector = irqIntNum rtcIrq
  · subst hrtc
    rw [installInterruptHandler, Function.update_self, if_pos rfl,
      if_neg (by decide)]
  rw [installInterruptHandler, Function.update_of_ne hrtc, if_neg hrtc]
  by_cases hkeyboard : vector = irqIntNum keyboardIrq
  · subst hkeyboard
    rw [installInterruptHandler, Function.update_self, if_pos rfl,
      if_neg (by decide)]
  rw [installInterruptHandler, Function.update_of_ne hkeyboard,
    if_neg hkeyboard]
  by_cases hsyscall : vector = syscallInt
  · subst hsyscall
    rw [installInterruptHandler, Function.update_self, if_pos rfl, if_pos rfl]
  rw [installInterruptHandler, Function.update_of_ne hsyscall,
    if_neg hsyscall, if_neg hsyscall, installAll_apply _ _ hlow,
    installAll_apply _ _ hhigh]
  by_cases hreserved : vector.toNat < numReservedVec
  · rw [if_pos (List.mem_range.mpr hreserved), if_pos hreserved]
  · rw [if_neg (fun h => hreserved (List.mem_range.mp h)), if_neg hreserved,
      if_pos]
    rw [List.mem_range'_1]
    rw [numReservedVec] at hreserved ⊢
    rw [numVec]
    omega

/-- The gates of the table. -/
theorem decodeGate_setUpIdt (addrs : HandlerAddresses) (idt : Idt)
    (vector : BitVec 8) :
    decodeGate (setUpIdt addrs idt vector).val = some {
      offset := addrs.handler vector
      selector := kernelCs.setWidth 32
      present := true
      dpl := if vector = syscallInt then 3 else 0 } := by
  rw [setUpIdt_apply, decodeGate_exceptionHandleDesc]
  split <;> rfl

/-- The first vectors are those of the exceptions. -/
theorem handler_of_reserved (addrs : HandlerAddresses) {num : Nat}
    (hnum : num < numReservedVec) :
    addrs.handler (BitVec.ofNat 8 num) = addrs.interruptHandler num := by
  rw [numReservedVec] at hnum
  have htoNat : (BitVec.ofNat 8 num).toNat = num := by
    rw [BitVec.toNat_ofNat]
    omega
  have hne : ∀ vector : BitVec 8, 32 ≤ vector.toNat →
      BitVec.ofNat 8 num ≠ vector := by
    rintro vector hvector rfl
    omega
  rw [HandlerAddresses.handler, if_neg (hne _ (by decide)),
    if_neg (hne _ (by decide)), if_neg (hne _ (by decide)),
    if_neg (hne _ (by decide)), htoNat, numReservedVec, if_pos hnum]

/-- The processor uses the table that `entry` has set up. -/
def Platform.UsesIdt (platform : Platform) (addrs : HandlerAddresses) : Prop :=
  ∃ start, ∀ vector, decodeGate (setUpIdt addrs start vector).val =
    some (platform.idt vector)

section UsesIdt

variable {platform : Platform} {addrs : HandlerAddresses}
  (hidt : platform.UsesIdt addrs)
include hidt

theorem Platform.UsesIdt.gate (vector : BitVec 8) : platform.idt vector = {
    offset := addrs.handler vector
    selector := kernelCs.setWidth 32
    present := true
    dpl := if vector = syscallInt then 3 else 0 } := by
  obtain ⟨start, hgates⟩ := hidt
  have hgate := hgates vector
  rw [decodeGate_setUpIdt] at hgate
  exact (Option.some.inj hgate).symm

/-- Every gate leads to level 0. -/
theorem Platform.UsesIdt.selector (vector : BitVec 8) :
    (platform.idt vector).selector.toNat % 4 = 0 := by
  rw [hidt.gate vector]
  show (kernelCs.setWidth 32).toNat % 4 = 0
  decide

/-- The gates of the exceptions. -/
theorem Platform.UsesIdt.exception_offset {num : Nat}
    (hnum : num < numReservedVec) :
    (platform.idt (BitVec.ofNat 8 num)).offset =
      addrs.interruptHandler num := by
  rw [hidt.gate, ← handler_of_reserved addrs hnum]

end UsesIdt

end PsychOS
