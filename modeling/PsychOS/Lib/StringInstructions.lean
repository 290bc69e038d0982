/-
The string instructions of the x86 and the few others that copy loops are made
of, on a flat 32-bit memory.  Addresses wrap around; as long as a range does
not, the repeated instructions are the fills and copies of plain memories.
-/
import PsychOS.Lib.Memory
import Mathlib.Tactic.IntervalCases

namespace PsychOS

/-- The registers that take part, the direction flag and memory.  All segments
are flat, so the selectors do not matter to an access. -/
structure Cpu where
  eax : BitVec 32
  ecx : BitVec 32
  edx : BitVec 32
  esi : BitVec 32
  edi : BitVec 32
  ds : BitVec 16
  es : BitVec 16
  df : Bool
  mem : Memory UInt8

/-- Byte `i` of a word, the lowest being byte 0. -/
def wordByte (word : BitVec 32) (i : Nat) : UInt8 :=
  UInt8.ofNat (word.toNat / 256 ^ i)

/-- The word at an address, lowest byte first. -/
def loadWord (mem : Memory UInt8) (addr : BitVec 32) : BitVec 32 :=
  BitVec.ofNat 32 ((mem addr.toNat).toNat +
    256 * (mem (addr + 1#32).toNat).toNat +
    256 ^ 2 * (mem (addr + 2#32).toNat).toNat +
    256 ^ 3 * (mem (addr + 3#32).toNat).toNat)

def storeWord (mem : Memory UInt8) (addr word : BitVec 32) : Memory UInt8 :=
  (((mem.store addr.toNat (wordByte word 0)).store
    (addr + 1#32).toNat (wordByte word 1)).store
      (addr + 2#32).toNat (wordByte word 2)).store
        (addr + 3#32).toNat (wordByte word 3)

namespace Cpu

variable (c : Cpu)

def al : UInt8 := wordByte c.eax 0

/-- `movb (%esi), %al`. -/
def movbEsiAl : Cpu :=
  { c with
    eax :=
      BitVec.ofNat 32 (c.eax.toNat / 256 * 256 + (c.mem c.esi.toNat).toNat) }

/-- `movb %al, (%edi)`. -/
def movbAlEdi : Cpu := { c with mem := c.mem.store c.edi.toNat c.al }

/-- `movw %ds, %dx` and `movw %dx, %es`. -/
def movwDsDx : Cpu :=
  { c with edx := c.edx.extractLsb' 16 16 ++ c.ds }

def movwDxEs : Cpu := { c with es := c.edx.setWidth 16 }

/-- `cld` and `std`. -/
def cld : Cpu := { c with df := false }

def std : Cpu := { c with df := true }

/-- Where a string instruction leaves a pointer to an element of that size. -/
def advance (ptr size : BitVec 32) : BitVec 32 :=
  if c.df then ptr - size else ptr + size

def stosl : Cpu :=
  { c with
    mem := storeWord c.mem c.edi c.eax
    edi := c.advance c.edi 4#32 }

def movsl : Cpu :=
  { c with
    mem := storeWord c.mem c.edi (loadWord c.mem c.esi)
    esi := c.advance c.esi 4#32
    edi := c.advance c.edi 4#32 }

def movsb : Cpu :=
  { c with
    mem := c.mem.store c.edi.toNat (c.mem c.esi.toNat)
    esi := c.advance c.esi 1#32
    edi := c.advance c.edi 1#32 }

/-- `count` turns of the `rep` prefix. -/
def turns (instruction : Cpu → Cpu) : Nat → Cpu → Cpu
  | 0, c => c
  | count + 1, c =>
      turns instruction count
        { instruction c with ecx := (instruction c).ecx - 1#32 }

/-- An instruction with the `rep` prefix. -/
def rep (instruction : Cpu → Cpu) (c : Cpu) : Cpu :=
  turns instruction c.ecx.toNat c

end Cpu

section Words

variable {mem : Memory UInt8} {addr : Nat}

theorem toNat_ofNat_of_lt (haddr : addr < 2 ^ 32) :
    (BitVec.ofNat 32 addr).toNat = addr := by
  rw [BitVec.toNat_ofNat, Nat.mod_eq_of_lt haddr]

theorem toNat_ofNat_add {i : Nat} (hin : addr + i < 2 ^ 32) :
    (BitVec.ofNat 32 addr + BitVec.ofNat 32 i).toNat = addr + i := by
  rw [← BitVec.ofNat_add, toNat_ofNat_of_lt hin]

/-- Storing a word that does not wrap around the end of memory. -/
theorem storeWord_eq (haddr : addr + 4 ≤ 2 ^ 32) (word : BitVec 32) :
    storeWord mem (BitVec.ofNat 32 addr) word =
      mem.storeList addr [wordByte word 0, wordByte word 1, wordByte word 2,
        wordByte word 3] := by
  rw [storeWord, toNat_ofNat_of_lt (by omega),
    toNat_ofNat_add (i := 1) (by omega), toNat_ofNat_add (i := 2) (by omega),
    toNat_ofNat_add (i := 3) (by omega)]
  rfl

theorem wordByte_loadWord (haddr : addr + 4 ≤ 2 ^ 32) {i : Nat}
    (hi : i < 4) :
    wordByte (loadWord mem (BitVec.ofNat 32 addr)) i = mem (addr + i) := by
  have h0 := (mem addr).toNat_lt
  have h1 := (mem (addr + 1)).toNat_lt
  have h2 := (mem (addr + 2)).toNat_lt
  have h3 := (mem (addr + 3)).toNat_lt
  rw [wordByte, loadWord, @toNat_ofNat_of_lt addr (by omega),
    toNat_ofNat_add (i := 1) (by omega), toNat_ofNat_add (i := 2) (by omega),
    toNat_ofNat_add (i := 3) (by omega), toNat_ofNat_of_lt (by omega)]
  apply UInt8.toNat_inj.mp
  rw [UInt8.toNat_ofNat']
  interval_cases i
  · change _ = (mem addr).toNat
    omega
  all_goals omega

/-- A word whose bytes are all alike fills four cells. -/
theorem storeWord_fill (haddr : addr + 4 ≤ 2 ^ 32) {word : BitVec 32}
    {value : UInt8} (hword : ∀ i < 4, wordByte word i = value) :
    storeWord mem (BitVec.ofNat 32 addr) word = mem.fill addr value 4 := by
  rw [storeWord_eq haddr, hword 0 (by decide), hword 1 (by decide),
    hword 2 (by decide), hword 3 (by decide)]
  rfl

/-- Moving a word is copying its four bytes, as long as the ascending copy
does not overwrite one of them first. -/
theorem storeWord_loadWord {dst src : Nat} (hdst : dst + 4 ≤ 2 ^ 32)
    (hsrc : src + 4 ≤ 2 ^ 32) (hsafe : dst ≤ src ∨ src + 4 ≤ dst) :
    storeWord mem (BitVec.ofNat 32 dst)
        (loadWord mem (BitVec.ofNat 32 src)) =
      mem.copyUp dst src 4 := by
  funext a
  rw [storeWord_eq hdst, wordByte_loadWord hsrc (by decide),
    wordByte_loadWord hsrc (by decide), wordByte_loadWord hsrc (by decide),
    wordByte_loadWord hsrc (by decide), Memory.copyUp_apply mem hsafe]
  by_cases hin : dst ≤ a ∧ a < dst + 4
  · obtain ⟨i, rfl⟩ := Nat.exists_eq_add_of_le hin.1
    have hi : i < 4 := by omega
    rw [if_pos hin, Memory.storeList_getElem mem dst hi,
      Nat.add_sub_cancel_left]
    interval_cases i <;> rfl
  · rw [if_neg hin, Memory.storeList_of_outside mem]
    change a < dst ∨ dst + 4 ≤ a
    omega

end Words

namespace Cpu

variable {c : Cpu} {dst src : Nat}

/-- The byte a load put in `%al` is the one a store from it writes. -/
theorem al_movbEsiAl (c : Cpu) : c.movbEsiAl.al = c.mem c.esi.toNat := by
  have hword := c.eax.isLt
  have hbyte := (c.mem c.esi.toNat).toNat_lt
  apply UInt8.toNat_inj.mp
  rw [al, movbEsiAl, wordByte, UInt8.toNat_ofNat',
    toNat_ofNat_of_lt (by omega)]
  omega

/-- What one turn of the `rep` prefix takes from `count + 1` to `count` holds
of zero at the end. -/
theorem turns_invariant (left : Nat → Cpu → Prop) (instruction : Cpu → Cpu)
    (hturn : ∀ count c, left (count + 1) c →
      left count { instruction c with ecx := (instruction c).ecx - 1#32 })
    {count : Nat} {c : Cpu} (hleft : left count c) :
    left 0 (turns instruction count c) := by
  induction count generalizing c with
  | zero => exact hleft
  | succ count ih =>
      apply ih
      exact hturn count c hleft

/-- Filling `count` more bytes with `value` gives `target`. -/
def FillsUp (value : UInt8) (target : Memory UInt8) (count : Nat)
    (c : Cpu) : Prop :=
  ∃ dst, c.edi = BitVec.ofNat 32 dst ∧ dst + count ≤ 2 ^ 32 ∧
    (∀ i < 4, wordByte c.eax i = value) ∧ c.mem.fill dst value count = target

/-- Copying `count` more bytes upwards gives `target`, and no source byte is
overwritten before it is read. -/
def CopiesUp (target : Memory UInt8) (count : Nat) (c : Cpu) : Prop :=
  ∃ dst src, c.edi = BitVec.ofNat 32 dst ∧ c.esi = BitVec.ofNat 32 src ∧
    dst + count ≤ 2 ^ 32 ∧ src + count ≤ 2 ^ 32 ∧
    (dst ≤ src ∨ src + count ≤ dst) ∧ c.mem.copyUp dst src count = target

/-- The same downwards, from pointers to the last byte of each range. -/
def CopiesDown (target : Memory UInt8) (count : Nat) (c : Cpu) : Prop :=
  ∃ dst src, c.edi = BitVec.ofNat 32 (dst + count) - 1#32 ∧
    c.esi = BitVec.ofNat 32 (src + count) - 1#32 ∧
    dst + count ≤ 2 ^ 32 ∧ src + count ≤ 2 ^ 32 ∧
    c.mem.copyDown dst src count = target

section Invariants

variable {target : Memory UInt8} {value : UInt8} {count : Nat}

theorem FillsUp.mem_eq (h : FillsUp value target 0 c) : c.mem = target := by
  obtain ⟨dst, -, -, -, htarget⟩ := h
  exact htarget

theorem CopiesUp.mem_eq (h : CopiesUp target 0 c) : c.mem = target := by
  obtain ⟨dst, src, -, -, -, -, -, htarget⟩ := h
  exact htarget

theorem CopiesDown.mem_eq (h : CopiesDown target 0 c) : c.mem = target := by
  obtain ⟨dst, src, -, -, -, -, htarget⟩ := h
  exact htarget

/-- Some bytes of a fill written and the pointer moved past them. -/
theorem FillsUp.step {size : Nat} {c' : Cpu}
    (h : FillsUp value target (count + size) c) (heax : c'.eax = c.eax)
    (hedi : c'.edi = c.edi + BitVec.ofNat 32 size)
    (hmem : ∀ dst, c.edi = BitVec.ofNat 32 dst → dst + size ≤ 2 ^ 32 →
      c'.mem = c.mem.fill dst value size) :
    FillsUp value target count c' := by
  obtain ⟨dst, hdst, hin, hword, htarget⟩ := h
  refine ⟨dst + size, ?_, by omega, ?_, ?_⟩
  · rw [hedi, hdst, BitVec.ofNat_add]
  · rw [heax]
    exact hword
  · rw [hmem dst hdst (by omega), ← Memory.fill_add, Nat.add_comm size]
    exact htarget

/-- Some bytes of an ascending copy moved and both pointers past them. -/
theorem CopiesUp.step {size : Nat} {c' : Cpu}
    (h : CopiesUp target (count + size) c)
    (hedi : c'.edi = c.edi + BitVec.ofNat 32 size)
    (hesi : c'.esi = c.esi + BitVec.ofNat 32 size)
    (hmem : ∀ dst src, c.edi = BitVec.ofNat 32 dst →
      c.esi = BitVec.ofNat 32 src → dst + size ≤ 2 ^ 32 →
      src + size ≤ 2 ^ 32 → (dst ≤ src ∨ src + size ≤ dst) →
      c'.mem = c.mem.copyUp dst src size) :
    CopiesUp target count c' := by
  obtain ⟨dst, src, hdst, hsrc, hdstIn, hsrcIn, hsafe, htarget⟩ := h
  refine ⟨dst + size, src + size, ?_, ?_, by omega, by omega, by omega, ?_⟩
  · rw [hedi, hdst, BitVec.ofNat_add]
  · rw [hesi, hsrc, BitVec.ofNat_add]
  · rw [hmem dst src hdst hsrc (by omega) (by omega) (by omega),
      ← Memory.copyUp_add, Nat.add_comm size]
    exact htarget

theorem FillsUp.stosl (hdf : c.df = false)
    (h : FillsUp value target (count + 4) c) :
    FillsUp value target count c.stosl := by
  have ⟨_, _, _, hword, _⟩ := h
  apply h.step
  · rfl
  · rw [Cpu.stosl, advance, hdf]
    rfl
  · intro dst hdst hin
    rw [Cpu.stosl, hdst, storeWord_fill hin hword]

theorem CopiesUp.movsl (hdf : c.df = false)
    (h : CopiesUp target (count + 4) c) : CopiesUp target count c.movsl := by
  apply h.step
  · rw [Cpu.movsl, advance, advance, hdf]
    rfl
  · rw [Cpu.movsl, advance, advance, hdf]
    rfl
  · intro dst src hdst hsrc hdstIn hsrcIn hsafe
    rw [Cpu.movsl, hdst, hsrc, storeWord_loadWord hdstIn hsrcIn hsafe]

theorem CopiesUp.movsb (hdf : c.df = false)
    (h : CopiesUp target (count + 1) c) : CopiesUp target count c.movsb := by
  apply h.step
  · rw [Cpu.movsb, advance, advance, hdf]
    rfl
  · rw [Cpu.movsb, advance, advance, hdf]
    rfl
  · intro dst src hdst hsrc hdstIn hsrcIn hsafe
    rw [Cpu.movsb, hdst, hsrc, toNat_ofNat_of_lt (by omega),
      toNat_ofNat_of_lt (by omega)]
    rfl

theorem CopiesDown.movsb (hdf : c.df = true)
    (h : CopiesDown target (count + 1) c) :
    CopiesDown target count c.movsb := by
  obtain ⟨dst, src, hdst, hsrc, hdstIn, hsrcIn, htarget⟩ := h
  have hlast (base : Nat) : BitVec.ofNat 32 (base + (count + 1)) - 1#32 =
      BitVec.ofNat 32 (base + count) := by
    rw [← Nat.add_assoc, BitVec.ofNat_add, BitVec.add_sub_cancel]
  rw [hlast] at hdst hsrc
  refine ⟨dst, src, ?_, ?_, by omega, by omega, ?_⟩
  · rw [Cpu.movsb, advance, advance, hdf, hdst]
    rfl
  · rw [Cpu.movsb, advance, advance, hdf, hsrc]
    rfl
  · rw [Cpu.movsb, hdst, hsrc, toNat_ofNat_of_lt (by omega),
      toNat_ofNat_of_lt (by omega)]
    exact htarget

/-- `rep movsb` with the direction flag clear. -/
theorem CopiesUp.rep_movsb (hdf : c.df = false)
    (h : CopiesUp target c.ecx.toNat c) : (rep Cpu.movsb c).mem = target := by
  have hinvariant := turns_invariant
    (fun count c => c.df = false ∧ CopiesUp target count c) Cpu.movsb
    (fun count c hleft => ⟨hleft.1, hleft.2.movsb hleft.1⟩) ⟨hdf, h⟩
  exact hinvariant.2.mem_eq

/-- `rep movsb` with the direction flag set. -/
theorem CopiesDown.rep_movsb (hdf : c.df = true)
    (h : CopiesDown target c.ecx.toNat c) :
    (rep Cpu.movsb c).mem = target := by
  have hinvariant := turns_invariant
    (fun count c => c.df = true ∧ CopiesDown target count c) Cpu.movsb
    (fun count c hleft => ⟨hleft.1, hleft.2.movsb hleft.1⟩) ⟨hdf, h⟩
  exact hinvariant.2.mem_eq

end Invariants

end Cpu

end PsychOS
