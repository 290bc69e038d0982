/-
Address spaces.  What the directory and the table of a slot hold after any
sequence of calls, what the processor makes of it, and that the address spaces
of different slots do not meet.
-/
import Mathlib.Data.List.Induction
import PsychOS.Paging

namespace PsychOS

section Entries

variable {junk frame : Nat} {globalPage pageSize user : Bool}

@[simp]
theorem absentEntry_permits (access : Access) :
    (absentEntry junk).permits access = false := rfl

theorem mappedEntry_permits (access : Access) :
    (mappedEntry junk frame globalPage pageSize user).permits access =
      (user || !access.user) := by
  obtain ⟨accessUser, write⟩ := access
  cases user <;> cases accessUser <;> cases write <;> rfl

theorem mappedEntry_frame (hframe : frame < 1048576) :
    (mappedEntry junk frame globalPage pageSize user).frame.val = frame :=
  Nat.mod_eq_of_lt hframe

end Entries

/-- The directory and the table of the slot are set up and show `vmemAddr` at
132MB. -/
structure AddressSpace (layout : Layout) (mem : Memory Nat)
    (slot vmemAddr : Nat) : Prop where
  directory : ∃ junk, ∀ i < numPdEntries,
    mem (getProcessPd slot / 4 + i) = (directoryEntry layout junk slot i).val
  table : ∃ junk, ∀ i < numPtEntries,
    mem (getProcessPt slot / 4 + i) = (userTableEntry junk vmemAddr i).val

/-- The shared table for the first 4MB is set up. -/
def SharedTable (layout : Layout) (mem : Memory Nat) : Prop :=
  ∃ junk, ∀ i < numPtEntries,
    mem (layout.vmemPt / 4 + i) = (videoTableEntry junk i).val

section Setup

variable {layout : Layout} {mem : Memory Nat} {slot : Nat}

/-- The word address of the structures of a slot, well above the kernel
image. -/
theorem getProcessPd_div (slot : Nat) :
    getProcessPd slot / 4 = 32505856 + 4096 * slot := by
  simp only [getProcessPd, pagingStructAddr, processStructSize, fourMbAligned,
    fourKbAligned]
  omega

theorem getProcessPt_div (slot : Nat) :
    getProcessPt slot / 4 = 32505856 + 4096 * slot + 1024 := by
  simp only [getProcessPt, pagingStructAddr, processStructSize, fourMbAligned,
    fourKbAligned]
  omega

theorem vmemPt_div (layout : Layout) :
    layout.vmemPt / 4 + 1024 ≤ 2097152 := by
  have hle := layout.vmemPt_le
  omega

theorem processFrame_eq (slot : Nat) :
    getProcessPageFromSlot slot / fourMbAligned * fourMbAligned / 4096 =
      2048 + 1024 * slot := by
  simp only [getProcessPageFromSlot, kernelPageEnd, processPageSize,
    fourMbAligned]
  omega

/-- The last store to the table changes nothing: the page has been
user-accessible since it was built. -/
theorem setupProcessPaging_eq (layout : Layout) (junk : Junk)
    (mem : Memory Nat) (processAddr slot vmemAddr a : Nat) :
    setupProcessPaging layout junk mem processAddr slot vmemAddr a =
      if a = getProcessPd slot / 4 + 32 then
        (mappedEntry junk.process
          (processAddr / fourMbAligned * fourMbAligned / 4096)
          false true true).val
      else initializePagingStructs layout junk mem (getProcessPd slot)
        (getProcessPt slot) vmemAddr a := by
  have hpd := getProcessPd_div slot
  have hpt := getProcessPt_div slot
  have hpage : initializePagingStructs layout junk mem (getProcessPd slot)
      (getProcessPt slot) vmemAddr (getProcessPt slot / 4) =
      (mappedEntry junk.userPage (vmemAddr / 4096) false false true).val := by
    simp only [initializePagingStructs, Memory.storeEach_apply, numPtEntries]
    rw [if_neg (by omega), Memory.store_same]
  have hne : getProcessPt slot / 4 ≠ getProcessPd slot / 4 + 32 := by omega
  simp only [setupProcessPaging, Memory.store, hne, ↓reduceIte, hpage,
    PageEntry.ofVal_val]
  by_cases hlast : a = getProcessPt slot / 4
  · rw [if_pos hlast, hlast, if_neg hne, hpage]
    rfl
  · rw [if_neg hlast]

theorem setupProcessPaging_directory (junk : Junk) (vmemAddr : Nat) {i : Nat}
    (hi : i < numPdEntries) :
    setupProcessPaging layout junk mem (getProcessPageFromSlot slot) slot
        vmemAddr (getProcessPd slot / 4 + i) =
      (directoryEntry layout junk slot i).val := by
  have hpd := getProcessPd_div slot
  have hpt := getProcessPt_div slot
  have hvmem := vmemPt_div layout
  have hstructs : pagingStructAddr / 4096 = 1024 * 31 := rfl
  simp only [numPdEntries] at hi
  rw [setupProcessPaging_eq, processFrame_eq]
  simp only [directoryEntry, initializePagingStructs, Memory.store,
    Memory.storeEach_apply, numPdEntries, numPtEntries, maxProcesses, hstructs]
  by_cases h32 : i = 32
  · rw [if_pos (by omega), if_pos h32]
  · rw [if_neg (by omega), if_neg h32, if_neg (by omega), if_neg (by omega)]
    by_cases h33 : i = 33
    · rw [if_pos (by omega), if_pos h33]
    · rw [if_neg (by omega), if_neg h33]
      by_cases hprogram : 2 ≤ i ∧ i < 8
      · have hindex : getProcessPd slot / 4 + i -
            (getProcessPd slot / 4 + 2) = i - 2 := by omega
        have hframe : 2048 + 1024 * (i - 2) = 1024 * i := by omega
        rw [if_pos (by omega), if_pos hprogram, hindex, hframe]
      · rw [if_neg (by omega), if_neg hprogram]
        by_cases h31 : i = 31
        · rw [if_pos (by omega), if_pos h31]
        · rw [if_neg (by omega), if_neg h31]
          by_cases h1 : i = 1
          · rw [if_pos (by omega), if_pos h1]
          · rw [if_neg (by omega), if_neg h1, if_neg (by omega)]
            by_cases h0 : i = 0
            · rw [if_pos (by omega), if_pos h0]
            · rw [if_neg (by omega), if_neg h0, if_pos (by omega),
                Nat.add_sub_cancel_left]

theorem setupProcessPaging_table (junk : Junk) (vmemAddr : Nat) {i : Nat}
    (hi : i < numPtEntries) :
    setupProcessPaging layout junk mem (getProcessPageFromSlot slot) slot
        vmemAddr (getProcessPt slot / 4 + i) =
      (userTableEntry junk vmemAddr i).val := by
  have hpd := getProcessPd_div slot
  have hpt := getProcessPt_div slot
  simp only [numPtEntries] at hi
  rw [setupProcessPaging_eq, if_neg (by omega)]
  simp only [userTableEntry, initializePagingStructs, Memory.store,
    Memory.storeEach_apply, numPtEntries]
  by_cases h0 : i = 0
  · rw [if_neg (by omega), if_pos (by omega), if_pos h0]
  · have hindex : getProcessPt slot / 4 + i -
        (getProcessPt slot / 4 + 1) + 1 = i := by omega
    rw [if_pos (by omega), if_neg h0, hindex]

theorem setupProcessPaging_shared (junk : Junk) (vmemAddr : Nat) {i : Nat}
    (hi : i < numPtEntries) :
    setupProcessPaging layout junk mem (getProcessPageFromSlot slot) slot
        vmemAddr (layout.vmemPt / 4 + i) = (videoTableEntry junk i).val := by
  have hpd := getProcessPd_div slot
  have hpt := getProcessPt_div slot
  have hvmem := vmemPt_div layout
  simp only [numPtEntries] at hi
  rw [setupProcessPaging_eq, if_neg (by omega)]
  simp only [initializePagingStructs, Memory.store, Memory.storeEach_apply,
    numPtEntries, maxProcesses]
  rw [if_neg (by omega), if_neg (by omega), if_neg (by omega),
    if_neg (by omega), if_neg (by omega), if_neg (by omega),
    if_pos (by omega), Nat.add_sub_cancel_left]

/-- Nothing outside the slot's structures and the shared table changes. -/
theorem setupProcessPaging_frame (junk : Junk) (processAddr vmemAddr : Nat)
    {a : Nat}
    (hslot : a < getProcessPd slot / 4 ∨ getProcessPd slot / 4 + 4096 ≤ a)
    (hshared : a < layout.vmemPt / 4 ∨ layout.vmemPt / 4 + 1024 ≤ a) :
    setupProcessPaging layout junk mem processAddr slot vmemAddr a =
      mem a := by
  have hpd := getProcessPd_div slot
  have hpt := getProcessPt_div slot
  rw [setupProcessPaging_eq, if_neg (by omega)]
  simp only [initializePagingStructs, Memory.store, Memory.storeEach_apply,
    numPdEntries, numPtEntries, maxProcesses]
  rw [if_neg (by omega), if_neg (by omega), if_neg (by omega),
    if_neg (by omega), if_neg (by omega), if_neg (by omega),
    if_neg (by omega), if_neg (by omega), if_neg (by omega)]

theorem setupProcessPaging_addressSpace (junk : Junk) (vmemAddr : Nat) :
    AddressSpace layout
      (setupProcessPaging layout junk mem (getProcessPageFromSlot slot) slot
        vmemAddr) slot vmemAddr :=
  ⟨⟨junk, fun _ hi => setupProcessPaging_directory junk vmemAddr hi⟩,
    ⟨junk, fun _ hi => setupProcessPaging_table junk vmemAddr hi⟩⟩

end Setup

section Frames

variable {layout : Layout} {mem next : Memory Nat} {slot vmemAddr : Nat}

/-- An address space depends on the slot's own structures only. -/
theorem AddressSpace.congr (hspace : AddressSpace layout mem slot vmemAddr)
    (hsame : ∀ a, getProcessPd slot / 4 ≤ a →
      a < getProcessPd slot / 4 + 4096 → next a = mem a) :
    AddressSpace layout next slot vmemAddr := by
  have hpd := getProcessPd_div slot
  have hpt := getProcessPt_div slot
  obtain ⟨⟨junk, hdirectory⟩, ⟨junk', htable⟩⟩ := hspace
  simp only [numPdEntries, numPtEntries] at hdirectory htable
  refine ⟨⟨junk, ?_⟩, ⟨junk', ?_⟩⟩
  · intro i hi
    simp only [numPdEntries] at hi
    rw [hsame _ (by omega) (by omega), hdirectory i hi]
  · intro i hi
    simp only [numPtEntries] at hi
    rw [hsame _ (by omega) (by omega), htable i hi]

theorem setupProcessPaging_other {other : Nat} (hne : other ≠ slot)
    (junk : Junk) (processAddr newVmem : Nat)
    (hspace : AddressSpace layout mem slot vmemAddr) :
    AddressSpace layout
      (setupProcessPaging layout junk mem processAddr other newVmem) slot
      vmemAddr := by
  have hpd := getProcessPd_div slot
  have hother := getProcessPd_div other
  have hvmem := vmemPt_div layout
  apply hspace.congr
  intro a hlo hhi
  apply setupProcessPaging_frame
  · omega
  · omega

theorem setProcessVmemPage_frame {other newVmem a : Nat}
    (ha : a ≠ getProcessPt other / 4) :
    setProcessVmemPage mem other newVmem a = mem a :=
  Memory.store_of_ne _ _ ha

theorem setProcessVmemPage_other {other : Nat} (hne : other ≠ slot)
    (newVmem : Nat) (hspace : AddressSpace layout mem slot vmemAddr) :
    AddressSpace layout (setProcessVmemPage mem other newVmem) slot
      vmemAddr := by
  have hpd := getProcessPd_div slot
  have hother := getProcessPt_div other
  apply hspace.congr
  intro a hlo hhi
  apply setProcessVmemPage_frame
  omega

/-- The call rewrites two fields of entry 0, which keeps its reserved bits. -/
theorem setProcessVmemPage_addressSpace (newVmem : Nat)
    (hspace : AddressSpace layout mem slot vmemAddr) :
    AddressSpace layout (setProcessVmemPage mem slot newVmem) slot
      newVmem := by
  have hpd := getProcessPd_div slot
  have hpt := getProcessPt_div slot
  obtain ⟨⟨junk, hdirectory⟩, ⟨junk', htable⟩⟩ := hspace
  refine ⟨⟨junk, ?_⟩, ⟨junk', ?_⟩⟩
  · intro i hi
    rw [setProcessVmemPage_frame, hdirectory i hi]
    simp only [numPdEntries] at hi
    omega
  · intro i hi
    by_cases h0 : i = 0
    · have hentry := htable 0 (by decide)
      subst h0
      simp only [Nat.add_zero] at hentry ⊢
      simp only [setProcessVmemPage, Memory.store_same, hentry,
        PageEntry.ofVal_val, userTableEntry, ↓reduceIte]
      rfl
    · rw [setProcessVmemPage_frame (by omega), htable i hi]
      simp only [userTableEntry, h0, ↓reduceIte]

theorem setProcessVmemPage_shared {other newVmem : Nat}
    (hshared : SharedTable layout mem) :
    SharedTable layout (setProcessVmemPage mem other newVmem) := by
  have hpt := getProcessPt_div other
  have hvmem := vmemPt_div layout
  obtain ⟨junk, hentries⟩ := hshared
  refine ⟨junk, ?_⟩
  intro i hi
  rw [setProcessVmemPage_frame, hentries i hi]
  simp only [numPtEntries] at hi
  omega

end Frames

/-- What the kernel sees at its physical address: the video page, the kernel
image with the program pages, and the paging structures. -/
def IdentityMapped (addr : Nat) : Prop :=
  videoPhysAddr ≤ addr ∧ addr < videoPhysAddr + fourKbAligned ∨
    fourMbAligned ≤ addr ∧ addr < 8 * fourMbAligned ∨
    pagingStructAddr ≤ addr ∧ addr < pagingStructAddr + fourMbAligned

instance (addr : Nat) : Decidable (IdentityMapped addr) :=
  inferInstanceAs (Decidable (_ ∨ _ ∨ _))

/-- The address space of a slot that shows `vmemAddr` at 132MB. -/
def translation (slot vmemAddr : Nat) (user : Bool) (addr : Nat) :
    Option Nat :=
  if processVirtPageStart ≤ addr ∧
      addr < processVirtPageStart + processPageSize then
    some (kernelPageEnd + processPageSize * slot +
      (addr - processVirtPageStart))
  else if getProcessVmemPage slot ≤ addr ∧
      addr < getProcessVmemPage slot + fourKbAligned then
    some (vmemAddr + (addr - getProcessVmemPage slot))
  else if user = false ∧ IdentityMapped addr then some addr
  else none

section Translation

variable {slot vmemAddr addr : Nat} {user : Bool}

theorem identityMapped_iff : IdentityMapped addr ↔
    addr / 4096 = 184 ∨ (1 ≤ addr / 4194304 ∧ addr / 4194304 < 8) ∨
      addr / 4194304 = 31 := by
  simp only [IdentityMapped, videoPhysAddr, fourKbAligned, fourMbAligned,
    pagingStructAddr]
  omega

theorem translation_process (hindex : addr / 4194304 = 32) :
    translation slot vmemAddr user addr =
      some (8388608 + 4194304 * slot + (addr - 134217728)) := by
  have hin : processVirtPageStart ≤ addr ∧
      addr < processVirtPageStart + processPageSize := by
    simp only [processVirtPageStart, processPageSize]
    omega
  rw [translation, if_pos hin]

theorem translation_vmem (hindex : addr / 4194304 = 33)
    (hpage : addr / 4096 % 1024 = 0) :
    translation slot vmemAddr user addr =
      some (vmemAddr + addr % 4096) := by
  have hout : ¬ (processVirtPageStart ≤ addr ∧
      addr < processVirtPageStart + processPageSize) := by
    simp only [processVirtPageStart, processPageSize]
    omega
  have hin : getProcessVmemPage slot ≤ addr ∧
      addr < getProcessVmemPage slot + fourKbAligned := by
    simp only [getProcessVmemPage, fourMbAligned, fourKbAligned]
    omega
  have hoffset : addr - getProcessVmemPage slot = addr % 4096 := by
    simp only [getProcessVmemPage, fourMbAligned]
    omega
  rw [translation, if_neg hout, if_pos hin, hoffset]

theorem translation_other (hprocess : addr / 4194304 ≠ 32)
    (hvmem : ¬ (addr / 4194304 = 33 ∧ addr / 4096 % 1024 = 0)) :
    translation slot vmemAddr user addr =
      if user = false ∧ IdentityMapped addr then some addr else none := by
  have hout : ¬ (processVirtPageStart ≤ addr ∧
      addr < processVirtPageStart + processPageSize) := by
    simp only [processVirtPageStart, processPageSize]
    omega
  have hout' : ¬ (getProcessVmemPage slot ≤ addr ∧
      addr < getProcessVmemPage slot + fourKbAligned) := by
    simp only [getProcessVmemPage, fourMbAligned, fourKbAligned]
    omega
  rw [translation, if_neg hout, if_neg hout']

end Translation

section Walk

variable {layout : Layout} {mem : Memory Nat} {slot vmemAddr addr : Nat}
  {access : Access}

/-- A supervisor page at its own address. -/
theorem pageWalk_identity {cr3 junk : Nat} {globalPage : Bool}
    (haddr : addr < 2 ^ 32)
    (hentry : PageEntry.ofVal (mem (cr3 / 4 + addr / 4194304)) =
      mappedEntry junk (1024 * (addr / 4194304)) globalPage true false) :
    pageWalk mem cr3 access addr =
      if access.user = false then some addr else none := by
  have hframe := @mappedEntry_frame junk (1024 * (addr / 4194304)) globalPage
    true false (by omega)
  cases huser : access.user with
  | false =>
      rw [pageWalk_large hentry (by rw [mappedEntry_permits, huser]; rfl) rfl
        (by rw [hframe]; omega), hframe, if_pos rfl]
      exact congrArg some (by omega)
  | true =>
      rw [pageWalk_refused hentry (by rw [mappedEntry_permits, huser]; rfl)]
      rfl

theorem walk_process (hslot : slot < maxProcesses)
    (hspace : AddressSpace layout mem slot vmemAddr)
    (hindex : addr / 4194304 = 32) :
    pageWalk mem (getProcessPd slot) access addr =
      some (8388608 + 4194304 * slot + (addr - 134217728)) := by
  obtain ⟨junk, hdirectory⟩ := hspace.directory
  have hentry : PageEntry.ofVal
      (mem (getProcessPd slot / 4 + addr / 4194304)) =
      mappedEntry junk.process (2048 + 1024 * slot) false true true := by
    rw [hindex, hdirectory 32 (by decide), PageEntry.ofVal_val]
    rfl
  simp only [maxProcesses] at hslot
  have hframe := @mappedEntry_frame junk.process (2048 + 1024 * slot) false
    true true (by omega)
  rw [pageWalk_large hentry (mappedEntry_permits access) rfl
    (by rw [hframe]; omega), hframe]
  exact congrArg some (by omega)

theorem walk_userTable (hslot : slot < maxProcesses)
    (hvmem : vmemAddr % 4096 = 0) (hvmemLt : vmemAddr < 2 ^ 32)
    (hspace : AddressSpace layout mem slot vmemAddr)
    (hindex : addr / 4194304 = 33) :
    pageWalk mem (getProcessPd slot) access addr =
      if addr / 4096 % 1024 = 0 then some (vmemAddr + addr % 4096)
      else none := by
  obtain ⟨junk, hdirectory⟩ := hspace.directory
  obtain ⟨junk', htable⟩ := hspace.table
  have hentry : PageEntry.ofVal
      (mem (getProcessPd slot / 4 + addr / 4194304)) =
      mappedEntry junk.userTable (getProcessPt slot / 4096) false false
        true := by
    rw [hindex, hdirectory 33 (by decide), PageEntry.ofVal_val]
    rfl
  have hpt := getProcessPt_div slot
  simp only [maxProcesses] at hslot
  have hframe := @mappedEntry_frame junk.userTable (getProcessPt slot / 4096)
    false false true (by omega)
  rw [pageWalk_table hentry (mappedEntry_permits access) rfl, hframe]
  have hbase : getProcessPt slot / 4096 * 4096 / 4 =
      getProcessPt slot / 4 := by
    simp only [getProcessPt, pagingStructAddr, processStructSize,
      fourMbAligned, fourKbAligned]
    omega
  have hpte : PageEntry.ofVal (mem (getProcessPt slot / 4096 * 4096 / 4 +
      addr / 4096 % 1024)) =
      userTableEntry junk' vmemAddr (addr / 4096 % 1024) := by
    rw [hbase, htable _ (Nat.mod_lt _ (by decide)), PageEntry.ofVal_val]
  by_cases hzero : addr / 4096 % 1024 = 0
  · have hmapped : userTableEntry junk' vmemAddr (addr / 4096 % 1024) =
        mappedEntry junk'.userPage (vmemAddr / 4096) false false true :=
      if_pos hzero
    rw [tableWalk_page (hpte.trans hmapped) (mappedEntry_permits access),
      mappedEntry_frame (by omega), if_pos hzero]
    exact congrArg some (by omega)
  · have habsent : userTableEntry junk' vmemAddr (addr / 4096 % 1024) =
        absentEntry (junk'.unused (addr / 4096 % 1024)) := if_neg hzero
    rw [tableWalk_refused (hpte.trans habsent) rfl, if_neg hzero]

theorem walk_video (hshared : SharedTable layout mem)
    (hspace : AddressSpace layout mem slot vmemAddr)
    (hindex : addr / 4194304 = 0) :
    pageWalk mem (getProcessPd slot) access addr =
      if access.user = false ∧ addr / 4096 = 184 then some addr
      else none := by
  obtain ⟨junk, hdirectory⟩ := hspace.directory
  obtain ⟨junk', htable⟩ := hshared
  have hentry : PageEntry.ofVal
      (mem (getProcessPd slot / 4 + addr / 4194304)) =
      mappedEntry junk.video (layout.vmemPt / 4096) false false false := by
    rw [hindex, hdirectory 0 (by decide), PageEntry.ofVal_val]
    rfl
  cases huser : access.user with
  | true =>
      rw [pageWalk_refused hentry (by rw [mappedEntry_permits, huser]; rfl)]
      rfl
  | false =>
      have hle := layout.vmemPt_le
      have halign := layout.vmemPt_aligned
      have hframe := @mappedEntry_frame junk.video (layout.vmemPt / 4096)
        false false false (by omega)
      rw [pageWalk_table hentry (by rw [mappedEntry_permits, huser]; rfl) rfl,
        hframe]
      have hbase : layout.vmemPt / 4096 * 4096 / 4 = layout.vmemPt / 4 := by
        omega
      have hpage : addr / 4096 % 1024 = addr / 4096 := by omega
      have hpte : PageEntry.ofVal (mem (layout.vmemPt / 4096 * 4096 / 4 +
          addr / 4096 % 1024)) = videoTableEntry junk' (addr / 4096) := by
        rw [hbase, htable _ (Nat.mod_lt _ (by decide)), PageEntry.ofVal_val,
          hpage]
      by_cases hvideo : addr / 4096 = 184
      · have hmapped : videoTableEntry junk' (addr / 4096) =
            mappedEntry (junk'.vmem 184) 184 false false false := by
          rw [hvideo]
          rfl
        rw [tableWalk_page (hpte.trans hmapped)
          (by rw [mappedEntry_permits, huser]; rfl),
          mappedEntry_frame (by decide), if_pos ⟨rfl, hvideo⟩]
        exact congrArg some (by omega)
      · have habsent : videoTableEntry junk' (addr / 4096) =
            absentEntry (junk'.vmem (addr / 4096)) := by
          rw [videoTableEntry, if_pos]
          simp only [fourKbAligned, videoPhysAddr]
          omega
        rw [tableWalk_refused (hpte.trans habsent) rfl]
        simp [hvideo]

/-- The directory entries that are neither the process page nor a table. -/
theorem walk_rest (hspace : AddressSpace layout mem slot vmemAddr)
    (haddr : addr < 2 ^ 32) (h32 : addr / 4194304 ≠ 32)
    (h33 : addr / 4194304 ≠ 33) (h0 : addr / 4194304 ≠ 0) :
    pageWalk mem (getProcessPd slot) access addr =
      if access.user = false ∧ IdentityMapped addr then some addr
      else none := by
  obtain ⟨junk, hdirectory⟩ := hspace.directory
  have hentry : PageEntry.ofVal
      (mem (getProcessPd slot / 4 + addr / 4194304)) =
      directoryEntry layout junk slot (addr / 4194304) := by
    rw [hdirectory _ (by simp only [numPdEntries]; omega),
      PageEntry.ofVal_val]
  rw [directoryEntry, if_neg h32, if_neg h33] at hentry
  have hmapped : ∀ {junk : Nat} {globalPage : Bool},
      PageEntry.ofVal (mem (getProcessPd slot / 4 + addr / 4194304)) =
        mappedEntry junk (1024 * (addr / 4194304)) globalPage true false →
      IdentityMapped addr →
      pageWalk mem (getProcessPd slot) access addr =
        if access.user = false ∧ IdentityMapped addr then some addr
        else none := by
    intro junk globalPage hentry hidentity
    rw [pageWalk_identity haddr hentry]
    simp only [hidentity, and_true]
  by_cases hprogram : 2 ≤ addr / 4194304 ∧ addr / 4194304 < 8
  · rw [if_pos hprogram] at hentry
    exact hmapped hentry (identityMapped_iff.mpr (by omega))
  · rw [if_neg hprogram] at hentry
    by_cases h31 : addr / 4194304 = 31
    · rw [if_pos h31, ← h31] at hentry
      exact hmapped hentry (identityMapped_iff.mpr (by omega))
    · rw [if_neg h31] at hentry
      by_cases h1 : addr / 4194304 = 1
      · have hframe : 1024 = 1024 * (addr / 4194304) := by omega
        rw [if_pos h1] at hentry
        rw [hframe] at hentry
        exact hmapped hentry (identityMapped_iff.mpr (by omega))
      · rw [if_neg h1, if_neg h0] at hentry
        have hnot : ¬ IdentityMapped addr := by
          rw [identityMapped_iff]
          omega
        rw [pageWalk_refused hentry (absentEntry_permits access)]
        simp only [hnot, and_false, ↓reduceIte]

/-- The processor translates every 32-bit address of a slot as the abstract
address space says. -/
theorem pageWalk_eq_translation (hslot : slot < maxProcesses)
    (hvmem : vmemAddr % 4096 = 0) (hvmemLt : vmemAddr < 2 ^ 32)
    (hshared : SharedTable layout mem)
    (hspace : AddressSpace layout mem slot vmemAddr)
    (haddr : addr < 2 ^ 32) :
    pageWalk mem (getProcessPd slot) access addr =
      translation slot vmemAddr access.user addr := by
  by_cases h32 : addr / 4194304 = 32
  · rw [walk_process hslot hspace h32, translation_process h32]
  · by_cases h33 : addr / 4194304 = 33
    · rw [walk_userTable hslot hvmem hvmemLt hspace h33]
      by_cases hpage : addr / 4096 % 1024 = 0
      · rw [if_pos hpage, translation_vmem h33 hpage]
      · have hnot : ¬ IdentityMapped addr := by
          rw [identityMapped_iff]
          omega
        rw [if_neg hpage, translation_other h32 (by omega)]
        simp only [hnot, and_false, ↓reduceIte]
    · rw [translation_other h32 (by omega)]
      by_cases h0 : addr / 4194304 = 0
      · have hiff : IdentityMapped addr ↔ addr / 4096 = 184 := by
          rw [identityMapped_iff]
          omega
        rw [walk_video hshared hspace h0]
        simp only [hiff]
      · exact walk_rest hspace haddr h32 h33 h0

end Walk

/-- The calls that change paging structures.  A process page always belongs to
the slot it is mapped for. -/
inductive PagingCall where
  | setup (slot vmemAddr : Nat) (junk : Junk)
  | setVmem (slot vmemAddr : Nat)

namespace PagingCall

def slot : PagingCall → Nat
  | .setup slot _ _ => slot
  | .setVmem slot _ => slot

def vmemAddr : PagingCall → Nat
  | .setup _ vmemAddr _ => vmemAddr
  | .setVmem _ vmemAddr => vmemAddr

def perform (layout : Layout) (mem : Memory Nat) : PagingCall → Memory Nat
  | .setup slot vmemAddr junk =>
      setupProcessPaging layout junk mem (getProcessPageFromSlot slot) slot
        vmemAddr
  | .setVmem slot vmemAddr => setProcessVmemPage mem slot vmemAddr

/-- A slot of the process table and an aligned 32-bit page address. -/
structure Legal (call : PagingCall) : Prop where
  slot_lt : call.slot < maxProcesses
  aligned : call.vmemAddr % 4096 = 0
  vmemAddr_lt : call.vmemAddr < 2 ^ 32

def setsUp (slot : Nat) : PagingCall → Bool
  | .setup other _ _ => other == slot
  | .setVmem _ _ => false

end PagingCall

def performCalls (layout : Layout) (mem : Memory Nat)
    (calls : List PagingCall) : Memory Nat :=
  calls.foldl (PagingCall.perform layout) mem

/-- The video page given by the last call made for the slot. -/
def lastVmemAddr (calls : List PagingCall) (slot : Nat) : Option Nat :=
  ((calls.filter fun call => call.slot == slot).getLast?).map
    PagingCall.vmemAddr

def SetUp (calls : List PagingCall) (slot : Nat) : Prop :=
  ∃ call ∈ calls, call.setsUp slot = true

section Calls

variable {layout : Layout} {mem : Memory Nat} {slot vmemAddr : Nat}
  {calls : List PagingCall} {call : PagingCall}

theorem lastVmemAddr_concat (calls : List PagingCall) (call : PagingCall)
    (slot : Nat) :
    lastVmemAddr (calls ++ [call]) slot =
      if call.slot = slot then some call.vmemAddr
      else lastVmemAddr calls slot := by
  by_cases hslot : call.slot = slot
  · simp [lastVmemAddr, hslot]
  · simp [lastVmemAddr, hslot]

/-- Calls for one slot leave the others alone. -/
theorem perform_other (hne : call.slot ≠ slot)
    (hspace : AddressSpace layout mem slot vmemAddr) :
    AddressSpace layout (call.perform layout mem) slot vmemAddr := by
  cases call with
  | setup other newVmem junk =>
      exact setupProcessPaging_other hne junk _ newVmem hspace
  | setVmem other newVmem => exact setProcessVmemPage_other hne newVmem hspace

theorem perform_own (hspace : AddressSpace layout mem call.slot vmemAddr) :
    AddressSpace layout (call.perform layout mem) call.slot
      call.vmemAddr := by
  cases call with
  | setup slot newVmem junk =>
      exact setupProcessPaging_addressSpace junk newVmem
  | setVmem slot newVmem =>
      exact setProcessVmemPage_addressSpace newVmem hspace

theorem perform_shared (hshared : SharedTable layout mem) :
    SharedTable layout (call.perform layout mem) := by
  cases call with
  | setup slot newVmem junk =>
      exact ⟨junk, fun _ hi => setupProcessPaging_shared junk newVmem hi⟩
  | setVmem slot newVmem => exact setProcessVmemPage_shared hshared

/-- After any sequence of calls, every slot that has been set up has its
address space, with the video page of the last call made for it. -/
theorem performCalls_addressSpace (calls : List PagingCall)
    (hsetup : SetUp calls slot) :
    SharedTable layout (performCalls layout mem calls) ∧
      ∃ vmemAddr, lastVmemAddr calls slot = some vmemAddr ∧
        AddressSpace layout (performCalls layout mem calls) slot
          vmemAddr := by
  induction calls using List.reverseRecOn with
  | nil =>
      obtain ⟨call, hmem, -⟩ := hsetup
      simp at hmem
  | append_singleton calls call ih =>
      rw [performCalls, List.foldl_append, List.foldl_cons, List.foldl_nil,
        lastVmemAddr_concat]
      by_cases hearlier : SetUp calls slot
      · obtain ⟨hshared, vmemAddr, hlast, hspace⟩ := ih hearlier
        refine ⟨perform_shared hshared, ?_⟩
        by_cases hslot : call.slot = slot
        · subst hslot
          exact ⟨_, if_pos rfl, perform_own hspace⟩
        · exact ⟨vmemAddr, (if_neg hslot).trans hlast,
            perform_other hslot hspace⟩
      · -- then the last call is the one that sets the slot up
        obtain ⟨other, hmem, hsets⟩ := hsetup
        rcases List.mem_append.mp hmem with hold | hnew
        · exact absurd ⟨other, hold, hsets⟩ hearlier
        · obtain rfl : other = call := List.mem_singleton.mp hnew
          cases other with
          | setVmem s v => simp [PagingCall.setsUp] at hsets
          | setup s v junk =>
              obtain rfl : s = slot := by
                simpa [PagingCall.setsUp] using hsets
              exact ⟨⟨junk, fun _ hi => setupProcessPaging_shared junk v hi⟩,
                v, if_pos rfl, setupProcessPaging_addressSpace junk v⟩

theorem lastVmemAddr_legal (hlegal : ∀ call ∈ calls, call.Legal)
    (hlast : lastVmemAddr calls slot = some vmemAddr) :
    slot < maxProcesses ∧ vmemAddr % 4096 = 0 ∧ vmemAddr < 2 ^ 32 := by
  obtain ⟨call, hcall, rfl⟩ := Option.map_eq_some_iff.mp hlast
  obtain ⟨hmade, hslot⟩ := List.mem_filter.mp (List.mem_of_getLast? hcall)
  have hcallLegal := hlegal call hmade
  have hslotEq : call.slot = slot := by simpa using hslot
  exact ⟨hslotEq ▸ hcallLegal.slot_lt, hcallLegal.aligned,
    hcallLegal.vmemAddr_lt⟩

theorem pageWalk_performCalls (hlegal : ∀ call ∈ calls, call.Legal)
    (hsetup : SetUp calls slot)
    (hlast : lastVmemAddr calls slot = some vmemAddr) (access : Access)
    {addr : Nat} (haddr : addr < 2 ^ 32) :
    pageWalk (performCalls layout mem calls) (getProcessPd slot) access addr =
      translation slot vmemAddr access.user addr := by
  obtain ⟨hshared, other, hother, hspace⟩ :=
    @performCalls_addressSpace layout mem slot calls hsetup
  obtain rfl : vmemAddr = other := Option.some.inj (hlast.symm.trans hother)
  obtain ⟨hslot, haligned, hlt⟩ := lastVmemAddr_legal hlegal hlast
  exact pageWalk_eq_translation hslot haligned hlt hshared hspace haddr

theorem setUp_concat (hsetup : SetUp calls slot) (call : PagingCall) :
    SetUp (calls ++ [call]) slot := by
  obtain ⟨earlier, hmem, hsets⟩ := hsetup
  exact ⟨earlier, List.mem_append_left _ hmem, hsets⟩

theorem legal_concat (hlegal : ∀ call ∈ calls, call.Legal)
    (hcall : call.Legal) : ∀ other ∈ calls ++ [call], other.Legal := by
  intro other hother
  rcases List.mem_append.mp hother with hold | hnew
  · exact hlegal other hold
  · rw [List.mem_singleton.mp hnew]
    exact hcall

/-- The pages at 128MB of different slots have no byte in common. -/
theorem translation_disjoint {slot other v v' addr addr' : Nat}
    {user user' : Bool} (hne : slot ≠ other) (hin : addr / 4194304 = 32)
    (hin' : addr' / 4194304 = 32) :
    translation slot v user addr ≠ translation other v' user' addr' := by
  rw [translation_process hin, translation_process hin']
  intro heq
  have hphys := Option.some.inj heq
  omega

/-- Address-space isolation: after any sequence of calls the processor sees in
every slot that has been set up exactly its own address space, further calls
for other slots do not change what it sees, and the program pages of two slots
share no physical address. -/
theorem address_spaces_isolated (layout : Layout) (mem : Memory Nat)
    (hlegal : ∀ call ∈ calls, call.Legal) :
    (∀ slot, SetUp calls slot →
        ∃ vmemAddr, lastVmemAddr calls slot = some vmemAddr ∧
          ∀ access addr, addr < 2 ^ 32 →
            pageWalk (performCalls layout mem calls) (getProcessPd slot)
                access addr =
              translation slot vmemAddr access.user addr) ∧
      (∀ slot call, SetUp calls slot → PagingCall.Legal call →
        call.slot ≠ slot → ∀ access addr, addr < 2 ^ 32 →
          pageWalk (performCalls layout mem (calls ++ [call]))
              (getProcessPd slot) access addr =
            pageWalk (performCalls layout mem calls) (getProcessPd slot)
              access addr) ∧
      (∀ slot other, SetUp calls slot → SetUp calls other → slot ≠ other →
        ∀ write write' addr addr',
          processVirtPageStart ≤ addr →
          addr < processVirtPageStart + processPageSize →
          processVirtPageStart ≤ addr' →
          addr' < processVirtPageStart + processPageSize →
          pageWalk (performCalls layout mem calls) (getProcessPd slot)
              ⟨true, write⟩ addr ≠
            pageWalk (performCalls layout mem calls) (getProcessPd other)
              ⟨true, write'⟩ addr') := by
  refine ⟨?_, ?_, ?_⟩
  · intro slot hsetup
    obtain ⟨-, vmemAddr, hlast, -⟩ :=
      @performCalls_addressSpace layout mem slot calls hsetup
    exact ⟨vmemAddr, hlast, fun access addr haddr =>
      pageWalk_performCalls hlegal hsetup hlast access haddr⟩
  · intro slot call hsetup hcall hne access addr haddr
    obtain ⟨-, vmemAddr, hlast, -⟩ :=
      @performCalls_addressSpace layout mem slot calls hsetup
    have hlast' : lastVmemAddr (calls ++ [call]) slot = some vmemAddr :=
      (lastVmemAddr_concat calls call slot).trans
        ((if_neg hne).trans hlast)
    rw [pageWalk_performCalls hlegal hsetup hlast access haddr,
      pageWalk_performCalls (legal_concat hlegal hcall)
        (setUp_concat hsetup call) hlast' access haddr]
  · intro slot other hsetup hother hne write write' addr addr' hlo hhi hlo'
      hhi'
    obtain ⟨-, v, hlast, -⟩ :=
      @performCalls_addressSpace layout mem slot calls hsetup
    obtain ⟨-, v', hlast', -⟩ :=
      @performCalls_addressSpace layout mem other calls hother
    simp only [processVirtPageStart, processPageSize] at hlo hhi hlo' hhi'
    rw [pageWalk_performCalls hlegal hsetup hlast ⟨true, write⟩ (by omega),
      pageWalk_performCalls hlegal hother hlast' ⟨true, write'⟩ (by omega)]
    exact translation_disjoint hne (by omega) (by omega)

/-- Two slots set up, the first with its video page moved afterwards. -/
def sampleCalls : List PagingCall :=
  [.setup 0 videoPhysAddr Junk.zero, .setup 1 0x502000 Junk.zero,
    .setVmem 0 0x500000]

theorem sampleCalls_isolated :
    (∀ call ∈ sampleCalls, call.Legal) ∧
      pageWalk (performCalls sampleLayout (fun _ => 0) sampleCalls)
        (getProcessPd 0) ⟨true, true⟩ 0x8400010 = some 0x500010 := by
  have hlegal : ∀ call ∈ sampleCalls, call.Legal := by
    intro call hcall
    simp only [sampleCalls, List.mem_cons, List.not_mem_nil, or_false]
      at hcall
    rcases hcall with rfl | rfl | rfl
    · exact ⟨by decide, by decide, by decide⟩
    · exact ⟨by decide, by decide, by decide⟩
    · exact ⟨by decide, by decide, by decide⟩
  refine ⟨hlegal, ?_⟩
  obtain ⟨vmemAddr, hlast, hwalk⟩ :=
    (address_spaces_isolated sampleLayout (fun _ => 0) hlegal).1 0
      ⟨.setup 0 videoPhysAddr Junk.zero, List.mem_cons_self, rfl⟩
  obtain rfl : 0x500000 = vmemAddr := Option.some.inj hlast
  exact (hwalk ⟨true, true⟩ 0x8400010 (by decide)).trans (by decide)

end Calls

end PsychOS
