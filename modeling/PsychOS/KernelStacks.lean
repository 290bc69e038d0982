/-
Finding a process by its kernel stack (`arch/x86/task.c`).  Every PCB lies at
the low end of its process's 8KB stack, and the kernel finds the running
process by cutting an address on the stack to a multiple of 8KB.  The four
functions are given here on 32-bit words, as they are compiled; the rest of the
development uses their values as numbers.
-/
import PsychOS.Kernel

namespace PsychOS

/-- Clearing the low bits of a word leaves a multiple of their range. -/
theorem toNat_and_not_mask {w : Nat} (word : BitVec w) {k : Nat} (hk : k ≤ w) :
    (word &&& ~~~(BitVec.ofNat w (2 ^ k - 1))).toNat =
      word.toNat / 2 ^ k * 2 ^ k := by
  have hpow : 2 ^ k ≤ 2 ^ w := Nat.pow_le_pow_right (by decide) hk
  have hpos : 0 < 2 ^ k := Nat.two_pow_pos k
  have hmask : (BitVec.ofNat w (2 ^ k - 1)).toNat = 2 ^ k - 1 := by
    rw [BitVec.toNat_ofNat, Nat.mod_eq_of_lt (by omega)]
  -- the cleared word and the low bits have no bit in common
  have hapart : (word &&& ~~~(BitVec.ofNat w (2 ^ k - 1))) &&&
      (word &&& BitVec.ofNat w (2 ^ k - 1)) = 0#w := by
    ext i
    simp only [BitVec.getElem_and, BitVec.getElem_not, BitVec.getElem_zero]
    cases word[i] <;> cases (BitVec.ofNat w (2 ^ k - 1))[i] <;> rfl
  have hjoin : (word &&& ~~~(BitVec.ofNat w (2 ^ k - 1))) |||
      (word &&& BitVec.ofNat w (2 ^ k - 1)) = word := by
    ext i
    simp only [BitVec.getElem_or, BitVec.getElem_and, BitVec.getElem_not]
    cases word[i] <;> cases (BitVec.ofNat w (2 ^ k - 1))[i] <;> rfl
  have hsum := BitVec.toNat_add_of_and_eq_zero hapart
  rw [BitVec.add_eq_or_of_and_eq_zero _ _ hapart, hjoin,
    @BitVec.toNat_and w word (BitVec.ofNat w _), hmask,
    Nat.and_two_pow_sub_one_eq_mod] at hsum
  have hdiv := Nat.div_add_mod' word.toNat (2 ^ k)
  omega

namespace Word

/-- `PCB_BITMASK`. -/
def pcbBitmask : BitVec 32 := ~~~0x1FFF#32

def getPcbFromEsp (processEsp : BitVec 32) : BitVec 32 :=
  (processEsp - 1#32) &&& pcbBitmask

def getPcbFromSlot (pcbSlot : BitVec 32) : BitVec 32 :=
  0x800000#32 - 0x2000#32 * (pcbSlot + 1#32)

/-- `get_current_pcb`, for the address of its stack variable. -/
def getCurrentPcb (stackVar : BitVec 32) : BitVec 32 :=
  getPcbFromEsp stackVar

/-- `get_current_kernel_stack_base`, for the address of its stack variable. -/
def getCurrentKernelStackBase (stackVar : BitVec 32) : BitVec 32 :=
  (stackVar &&& pcbBitmask) + 0x2000#32

def getKernelStackBaseFromSlot (pcbSlot : BitVec 32) : BitVec 32 :=
  0x800000#32 - 0x2000#32 * pcbSlot

theorem toNat_and_pcbBitmask (addr : BitVec 32) :
    (addr &&& pcbBitmask).toNat =
      addr.toNat / kernelStackSize * kernelStackSize :=
  @toNat_and_not_mask 32 addr 13 (by decide)

/-- The word computed from a stack pointer is the number the kernel model
computes. -/
theorem toNat_getPcbFromEsp {processEsp : BitVec 32}
    (hpos : 0 < processEsp.toNat) :
    (getPcbFromEsp processEsp).toNat =
      PsychOS.getPcbFromEsp processEsp.toNat := by
  have hsub : (processEsp - 1#32).toNat = processEsp.toNat - 1 := by
    have hlt := processEsp.isLt
    rw [BitVec.toNat_sub, BitVec.toNat_ofNat]
    omega
  rw [getPcbFromEsp, toNat_and_pcbBitmask, hsub]
  rfl

section Slots

/-- So many stacks below the end of the kernel page. -/
theorem toNat_belowPageEnd {count : BitVec 32}
    (hcount : kernelStackSize * count.toNat ≤ kernelPageEnd) :
    (0x800000#32 - 0x2000#32 * count).toNat =
      kernelPageEnd - kernelStackSize * count.toNat := by
  simp only [kernelPageEnd, kernelStackSize] at *
  have hmul : (0x2000#32 * count).toNat = 0x2000 * count.toNat := by
    rw [BitVec.toNat_mul, BitVec.toNat_ofNat]
    omega
  bv_omega

variable {pcbSlot : BitVec 32}

theorem toNat_getPcbFromSlot
    (hslot : kernelStackSize * (pcbSlot.toNat + 1) ≤ kernelPageEnd) :
    (getPcbFromSlot pcbSlot).toNat =
      PsychOS.getPcbFromSlot pcbSlot.toNat := by
  have hnext : (pcbSlot + 1#32).toNat = pcbSlot.toNat + 1 := by
    simp only [kernelPageEnd, kernelStackSize] at hslot
    rw [BitVec.toNat_add, BitVec.toNat_ofNat]
    omega
  rw [getPcbFromSlot, toNat_belowPageEnd (hnext ▸ hslot), hnext]
  rfl

theorem toNat_getKernelStackBaseFromSlot
    (hslot : kernelStackSize * (pcbSlot.toNat + 1) ≤ kernelPageEnd) :
    (getKernelStackBaseFromSlot pcbSlot).toNat =
      PsychOS.getKernelStackBaseFromSlot pcbSlot.toNat := by
  apply toNat_belowPageEnd
  exact Nat.le_trans (Nat.mul_le_mul_left _ (Nat.le_succ _)) hslot

end Slots

end Word

/-- The slot's stack and PCB lie in the kernel page. -/
def StackFits (slot : BitVec 32) : Prop :=
  kernelStackSize * (slot.toNat + 1) ≤ kernelPageEnd

/-- A stack pointer on the kernel stack of a slot; at the base the stack is
empty. -/
def PointsIntoStack (slot esp : BitVec 32) : Prop :=
  (Word.getKernelStackBaseFromSlot slot).toNat - kernelStackSize < esp.toNat ∧
    esp.toNat ≤ (Word.getKernelStackBaseFromSlot slot).toNat

/-- The address of a byte of the kernel stack of a slot. -/
def InStack (slot addr : BitVec 32) : Prop :=
  (Word.getKernelStackBaseFromSlot slot).toNat - kernelStackSize ≤
      addr.toNat ∧
    addr.toNat < (Word.getKernelStackBaseFromSlot slot).toNat

section Stacks

variable {slot esp addr : BitVec 32}

/-- Where the stack of a slot starts and ends. -/
theorem StackFits.base_eq (hslot : StackFits slot) :
    (Word.getKernelStackBaseFromSlot slot).toNat =
        kernelStackSize * (1024 - slot.toNat) ∧
      slot.toNat + 1 ≤ 1024 := by
  rw [Word.toNat_getKernelStackBaseFromSlot hslot]
  simp only [StackFits, getKernelStackBaseFromSlot, kernelPageEnd,
    kernelStackSize] at *
  omega

theorem getPcbFromSlot_eq {n : Nat} (hlt : n + 1 ≤ 1024) :
    getPcbFromSlot n = kernelStackSize * (1023 - n) := by
  unfold getPcbFromSlot
  generalize hnext : n + 1 = next
  simp only [kernelPageEnd, kernelStackSize]
  omega

theorem StackFits.getPcbFromEsp_eq (hslot : StackFits slot)
    (hesp : PointsIntoStack slot esp) :
    Word.getPcbFromEsp esp = Word.getPcbFromSlot slot := by
  obtain ⟨hbase, hlt⟩ := hslot.base_eq
  obtain ⟨hlo, hhi⟩ := hesp
  rw [hbase] at hlo hhi
  have hpos : 0 < esp.toNat := Nat.zero_lt_of_lt hlo
  apply BitVec.eq_of_toNat_eq
  have hquot : (esp.toNat - 1) / kernelStackSize = 1023 - slot.toNat := by
    simp only [kernelStackSize] at *
    omega
  rw [Word.toNat_getPcbFromEsp hpos, Word.toNat_getPcbFromSlot hslot,
    getPcbFromSlot_eq hlt, getPcbFromEsp, hquot, Nat.mul_comm]

theorem StackFits.getCurrentKernelStackBase_eq (hslot : StackFits slot)
    (haddr : InStack slot addr) :
    Word.getCurrentKernelStackBase addr =
      Word.getKernelStackBaseFromSlot slot := by
  obtain ⟨hbase, hlt⟩ := hslot.base_eq
  obtain ⟨hlo, hhi⟩ := haddr
  rw [hbase] at hlo hhi
  apply BitVec.eq_of_toNat_eq
  rw [Word.getCurrentKernelStackBase, BitVec.toNat_add,
    Word.toNat_and_pcbBitmask, hbase, BitVec.toNat_ofNat]
  simp only [kernelStackSize] at *
  omega

/-- A stack pointer is on one stack only, and so is a byte. -/
theorem StackFits.slot_unique {other : BitVec 32} (hslot : StackFits slot)
    (hother : StackFits other) :
    (∀ esp, PointsIntoStack slot esp → PointsIntoStack other esp →
        slot = other) ∧
      ∀ addr, InStack slot addr → InStack other addr → slot = other := by
  obtain ⟨hbase, hlt⟩ := hslot.base_eq
  obtain ⟨hbase', hlt'⟩ := hother.base_eq
  constructor
  · intro esp hesp hesp'
    rw [PointsIntoStack, hbase, kernelStackSize] at hesp
    rw [PointsIntoStack, hbase', kernelStackSize] at hesp'
    apply BitVec.eq_of_toNat_eq
    omega
  · intro addr haddr haddr'
    rw [InStack, hbase, kernelStackSize] at haddr
    rw [InStack, hbase', kernelStackSize] at haddr'
    apply BitVec.eq_of_toNat_eq
    omega

end Stacks

/-- The stack pointer and the slot lead to the same PCB and the same stack
base, from anywhere on the stack, and no other slot's stack reaches there. -/
theorem stack_finds_process {slot : BitVec 32}
    (hslot : kernelStackSize * (slot.toNat + 1) ≤ kernelPageEnd) :
    (∀ esp, PointsIntoStack slot esp →
        Word.getPcbFromEsp esp = Word.getPcbFromSlot slot ∧
          Word.getCurrentPcb esp = Word.getPcbFromSlot slot) ∧
      (∀ addr, InStack slot addr →
        Word.getCurrentKernelStackBase addr =
          Word.getKernelStackBaseFromSlot slot) ∧
      ∀ other : BitVec 32,
        kernelStackSize * (other.toNat + 1) ≤ kernelPageEnd → slot ≠ other →
        (∀ esp, PointsIntoStack slot esp → ¬ PointsIntoStack other esp) ∧
          ∀ addr, InStack slot addr → ¬ InStack other addr := by
  have hfits : StackFits slot := hslot
  refine ⟨?_, fun addr haddr => hfits.getCurrentKernelStackBase_eq haddr, ?_⟩
  · intro esp hesp
    exact ⟨hfits.getPcbFromEsp_eq hesp, hfits.getPcbFromEsp_eq hesp⟩
  · intro other hother hne
    obtain ⟨hpointers, hbytes⟩ := hfits.slot_unique hother
    exact ⟨fun esp hesp hesp' => hne (hpointers esp hesp hesp'),
      fun addr haddr haddr' => hne (hbytes addr haddr haddr')⟩

/-- The empty stack of the second slot, and the byte just below its base. -/
theorem second_stack_finds_process :
    Word.getPcbFromEsp 0x7FE000#32 = Word.getPcbFromSlot 1#32 ∧
      Word.getCurrentKernelStackBase 0x7FDFFF#32 =
        Word.getKernelStackBaseFromSlot 1#32 ∧
      ¬ PointsIntoStack 0#32 0x7FE000#32 := by
  obtain ⟨hpcb, hbase, hapart⟩ := @stack_finds_process 1#32 (by decide)
  have hempty : PointsIntoStack 1#32 0x7FE000#32 := ⟨by decide, by decide⟩
  exact ⟨(hpcb _ hempty).1, hbase _ ⟨by decide, by decide⟩,
    (hapart 0#32 (by decide) (by decide)).1 _ hempty⟩

end PsychOS
