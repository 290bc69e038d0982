/-
Where `parse_command` stores.  Its stores are listed with their offsets in
`pcb_t`; those that stay inside `program_name` and `args` are the ones that
change no other field.
-/
import PsychOS.Boot

namespace PsychOS

/-- The stores of `parse_command` in order: each byte with its offset from
`program_name`. -/
def parseStores (command : List UInt8) : List (UInt8 × Nat) :=
  (nameField command).zipIdx ++ (argsField command).zipIdx maxProgramNameLength

/-- A sequence of stores into a PCB. -/
def Pcb.storeAll (pcb : Pcb) (stores : List (UInt8 × Nat)) : Pcb :=
  stores.foldl (fun pcb store => pcb.writeByte store.2 store.1) pcb

theorem Pcb.storeAll_append (pcb : Pcb) (first second : List (UInt8 × Nat)) :
    pcb.storeAll (first ++ second) = (pcb.storeAll first).storeAll second := by
  simp [Pcb.storeAll]

theorem writeBytes_eq_storeAll (pcb : Pcb) (offset : Nat)
    (bytes : List UInt8) :
    pcb.writeBytes offset bytes = pcb.storeAll (bytes.zipIdx offset) := by
  induction bytes generalizing pcb offset with
  | nil => rfl
  | cons byte rest ih => exact ih (pcb.writeByte offset byte) (offset + 1)

theorem parseCommand_eq_storeAll (command : List UInt8) (pcb : Pcb) :
    parseCommand command pcb = pcb.storeAll (parseStores command) := by
  rw [parseCommand_eq_writeBytes, parseStores, Pcb.storeAll_append,
    writeBytes_eq_storeAll, writeBytes_eq_storeAll]

section Offsets

theorem mem_offsets_zipIdx (bytes : List UInt8) (offset i : Nat) :
    (∃ store ∈ bytes.zipIdx offset, store.2 = i) ↔
      offset ≤ i ∧ i < offset + bytes.length := by
  rw [← List.mem_range'_1, ← List.zipIdx_map_snd offset bytes, List.mem_map]

/-- The offsets `parse_command` stores at. -/
theorem mem_offsets (command : List UInt8) (i : Nat) :
    (∃ store ∈ parseStores command, store.2 = i) ↔
      i ≤ lenName command ∨ (maxProgramNameLength ≤ i ∧
        i ≤ maxProgramNameLength + lenArgs command) := by
  have hname := mem_offsets_zipIdx (nameField command) 0 i
  have hargs := mem_offsets_zipIdx (argsField command) maxProgramNameLength i
  rw [nameField_length] at hname
  rw [argsField_length] at hargs
  simp only [parseStores, List.mem_append, or_and_right, exists_or, hname,
    hargs]
  omega

theorem offsets_lt_iff (command : List UInt8) :
    (∀ store ∈ parseStores command, store.2 < entrypointOffset) ↔
      commandEnd command ≤ entrypointOffset := by
  have hlast := mem_offsets command
  simp only [commandEnd, entrypointOffset, maxProgramNameLength,
    maxArgsLength] at hlast ⊢
  constructor
  · intro hinside
    obtain ⟨store, hmem, hname⟩ := (hlast (lenName command)).mpr (by omega)
    obtain ⟨store', hmem', hargs⟩ :=
      (hlast (128 + lenArgs command)).mpr (by omega)
    have := hinside store hmem
    have := hinside store' hmem'
    omega
  · intro hfits store hmem
    have := (hlast store.2).mp ⟨store, hmem, rfl⟩
    omega

/-- A command that does not fit stores to the first byte behind `args`. -/
theorem entrypoint_stored {command : List UInt8}
    (hlong : ¬ commandEnd command ≤ entrypointOffset) :
    ∃ store ∈ parseStores command, store.2 = entrypointOffset := by
  rw [mem_offsets]
  simp only [commandEnd, entrypointOffset, maxProgramNameLength,
    maxArgsLength] at hlong ⊢
  omega

end Offsets

section LowByte

/-- The lowest byte of the entry point is what was stored there. -/
theorem writeByte_entrypoint (pcb : Pcb) (byte : UInt8) :
    (pcb.writeByte entrypointOffset byte).entrypoint % 256 = byte.toNat := by
  have hword : (pcb.writeByte entrypointOffset byte).entrypoint =
      setByte pcb.entrypoint 0 byte := by
    rw [Pcb.writeByte, if_neg (Nat.lt_irrefl _)]
    rfl
  have hbyte := byte.toNat_lt
  rw [hword, setByte, Nat.pow_zero]
  omega

theorem setByte_low (value : Nat) {i : Nat} (byte : UInt8) (hi : 0 < i) :
    setByte value i byte % 256 = value % 256 := by
  obtain ⟨j, rfl⟩ := Nat.exists_eq_add_of_le' hi
  have hpow : 256 ^ (j + 1) = 256 * 256 ^ j := Nat.pow_succ'
  have hold : value / 256 ^ (j + 1) % 256 * 256 ^ (j + 1) ≤ value :=
    Nat.le_trans (Nat.mul_le_mul_right _ (Nat.mod_le _ _))
      (Nat.div_mul_le_self _ _)
  rw [setByte, hpow, Nat.mul_left_comm, Nat.mul_left_comm byte.toNat]
  rw [hpow, Nat.mul_left_comm] at hold
  omega

theorem writeByte_entrypoint_of_ne (pcb : Pcb) {offset : Nat} (byte : UInt8)
    (hne : offset ≠ entrypointOffset) :
    (pcb.writeByte offset byte).entrypoint % 256 = pcb.entrypoint % 256 := by
  rw [Pcb.writeByte]
  split
  · rfl
  · rename_i hbehind
    split
    · rename_i hword
      -- a higher byte of the same word
      apply setByte_low
      simp only [entrypointOffset, maxProgramNameLength, maxArgsLength] at *
      omega
    all_goals rfl

/-- Once there is a store to it, the lowest byte of the entry point is the
same whatever it was before. -/
theorem storeAll_entrypoint {stores : List (UInt8 × Nat)}
    (hstored : ∃ store ∈ stores, store.2 = entrypointOffset) :
    ∃ byte : UInt8, ∀ pcb : Pcb,
      (pcb.storeAll stores).entrypoint % 256 = byte.toNat := by
  -- by the last store: it decides, or the stores before it do
  induction stores using List.reverseRecOn with
  | nil =>
      obtain ⟨store, hmem, -⟩ := hstored
      cases hmem
  | append_singleton stores last ih =>
      by_cases hlast : last.2 = entrypointOffset
      · refine ⟨last.1, ?_⟩
        intro pcb
        rw [Pcb.storeAll_append, Pcb.storeAll, List.foldl_cons, hlast]
        exact writeByte_entrypoint _ last.1
      · have hbefore : ∃ store ∈ stores, store.2 = entrypointOffset := by
          obtain ⟨store, hmem, hoffset⟩ := hstored
          rcases List.mem_append.mp hmem with hmem | hmem
          · exact ⟨store, hmem, hoffset⟩
          · rw [List.mem_singleton.mp hmem] at hoffset
            exact absurd hoffset hlast
        obtain ⟨byte, hbyte⟩ := ih hbefore
        refine ⟨byte, ?_⟩
        intro pcb
        rw [Pcb.storeAll_append, Pcb.storeAll, List.foldl_cons,
          List.foldl_nil, writeByte_entrypoint_of_ne _ _ hlast, hbyte pcb]

end LowByte

/-- A command that does not fit changes the entry point of some PCB. -/
theorem parseCommand_changes {command : List UInt8}
    (hlong : ¬ commandEnd command ≤ entrypointOffset) :
    ∃ pcb, (parseCommand command pcb).entrypoint ≠ pcb.entrypoint := by
  obtain ⟨byte, hbyte⟩ := storeAll_entrypoint (entrypoint_stored hlong)
  -- any other lowest byte to begin with
  refine ⟨{ Pcb.zeroed with entrypoint := (byte.toNat + 1) % 256 }, ?_⟩
  intro hsame
  have hafter := hbyte { Pcb.zeroed with entrypoint := (byte.toNat + 1) % 256 }
  rw [← parseCommand_eq_storeAll, hsame] at hafter
  have := byte.toNat_lt
  simp only at hafter
  omega

theorem startProcess_pages (layout : Layout) (k : Kernel)
    (parent child entrypoint esp ebp : Nat) (junk : Junk) :
    (startProcess layout k parent child entrypoint esp ebp junk).pages =
      k.pages :=
  rfl

/-- `syscall_execute` loads into the slot it found free. -/
theorem syscallExecute_pages {command : List UInt8}
    (hfits : commandEnd command ≤ entrypointOffset) {k : Kernel} {child : Nat}
    (hfree : k.freeSlot = some child) (img : Image) (layout : Layout)
    (esp ebp : Nat) (junk : Junk) :
    (syscallExecute img layout k command esp ebp junk).1.pages =
      (loadProgramIntoSlot img k.pages (k.namedPcb command child).text
        child).1 := by
  have hslot : (k.namedPcb command child).slotNum = child := by
    rw [Kernel.namedPcb, parseCommand_text hfits]
  simp only [syscallExecute, hfree, hslot]
  split
  · rfl
  · exact startProcess_pages layout _ _ _ _ _ _ _

/-- The stores of `parse_command` stay inside `program_name` and `args` exactly
for the commands it changes no other field with, which are those whose name and
arguments have room; and then the program is loaded into the free slot. -/
theorem parse_inside_fields_iff (command : List UInt8) :
    ((∀ store ∈ parseStores command, store.2 < entrypointOffset) ↔
      commandEnd command ≤ entrypointOffset) ∧
    ((∀ pcb, parseCommand command pcb =
        { pcb with text := (parseCommand command pcb).text }) ↔
      commandEnd command ≤ entrypointOffset) ∧
    (commandEnd command ≤ entrypointOffset →
      ∀ (img : Image) (layout : Layout) (k : Kernel) (child esp ebp : Nat)
        (junk : Junk), k.freeSlot = some child →
        (k.namedPcb command child).slotNum = child ∧
        (syscallExecute img layout k command esp ebp junk).1.pages =
          (loadProgramIntoSlot img k.pages (k.namedPcb command child).text
            child).1) := by
  refine ⟨offsets_lt_iff command, ⟨?_, ?_⟩, ?_⟩
  · intro hframe
    by_contra hlong
    obtain ⟨pcb, hchanged⟩ := parseCommand_changes hlong
    rw [hframe pcb] at hchanged
    exact hchanged rfl
  · intro hfits pcb
    rw [parseCommand_text hfits]
  · intro hfits img layout k child esp ebp junk hfree
    refine ⟨?_, syscallExecute_pages hfits hfree img layout esp ebp junk⟩
    rw [Kernel.namedPcb, parseCommand_text hfits]

/-- Arguments that reach 5 bytes behind their field have their last byte land
in `slot_num`, so that the program is loaded into the slot of another
process. -/
theorem parse_overwrites_slot :
    (1, 260) ∈ parseStores (overrunCommand 115 1) ∧
      sampleKernel.freeSlot = some 3 ∧
      (sampleKernel.namedPcb (overrunCommand 115 1) 3).slotNum = 1 := by
  decide +kernel

end PsychOS
