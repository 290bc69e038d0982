/-
The memory routines of the kernel's library.  `memset` and `memcpy` go byte by
byte to an aligned destination, word by word from there and byte by byte over
what is left; `memmove` chooses its direction by the order of its arguments.
Each label of the assembly is a function of the processor's state.
-/
import PsychOS.Lib.StringInstructions

namespace PsychOS

/-- `.memset_bottom` and `.memcpy_bottom`: `%edx` more turns of `byteStep`. -/
def loopBottom (byteStep : Cpu → Cpu) : Nat → Cpu → Option Cpu
  | 0, _ => none
  | fuel + 1, c =>
      if c.edx = 0#32 then some c
      else
        let c := byteStep c
        loopBottom byteStep fuel { c with edx := c.edx - 1#32 }

/-- `.memset_aligned` and `.memcpy_aligned` up to the repeated instruction:
the words go to `%ecx` and the bytes behind them to `%edx`. -/
def loopCounts (c : Cpu) : Cpu :=
  let c := c.movwDsDx.movwDxEs
  let c := { c with edx := c.ecx }
  let c := { c with ecx := c.ecx >>> 2 }
  let c := { c with edx := c.edx &&& 0x3#32 }
  c.cld

def loopAligned (instruction : Cpu → Cpu) (c : Cpu) : Cpu :=
  (loopCounts c).rep instruction

/-- `.memset_top` and `.memcpy_top`. -/
def loopTop (byteStep instruction : Cpu → Cpu) : Nat → Cpu → Option Cpu
  | 0, _ => none
  | fuel + 1, c =>
      if c.ecx = 0#32 then some c
      else if c.edi &&& 0x3#32 = 0#32 then
        loopBottom byteStep (fuel + 1) (loopAligned instruction c)
      else
        let c := byteStep c
        loopTop byteStep instruction fuel { c with ecx := c.ecx - 1#32 }

/-- More turns than a 32-bit counter can ask for. -/
def loopFuel : Nat := 2 ^ 32

def memsetByte (c : Cpu) : Cpu :=
  let c := c.movbAlEdi
  { c with edi := c.edi + 1#32 }

/-- `memset`: the result and the state left behind. -/
def memset (c : Cpu) (s value n : BitVec 32) : Option (BitVec 32 × Cpu) :=
  let value := value &&& 0xFF#32
  let word := value <<< 24 ||| value <<< 16 ||| value <<< 8 ||| value
  (loopTop memsetByte Cpu.stosl loopFuel
    { c with eax := word, edi := s, ecx := n }).map fun c => (s, c)

def memcpyByte (c : Cpu) : Cpu :=
  let c := c.movbEsiAl.movbAlEdi
  let c := { c with edi := c.edi + 1#32 }
  { c with esi := c.esi + 1#32 }

def memcpy (c : Cpu) (dest src n : BitVec 32) : Option (BitVec 32 × Cpu) :=
  (loopTop memcpyByte Cpu.movsl loopFuel
    { c with esi := src, edi := dest, ecx := n }).map fun c => (dest, c)

/-- The pointers go to the last bytes and the copy downwards. -/
def memmoveBackwards (c : Cpu) : Cpu :=
  let c := { c with esi := c.esi + c.ecx - 1#32 }
  let c := { c with edi := c.edi + c.ecx - 1#32 }
  c.std

/-- `memmove` up to `.memmove_go`.  The jump is taken if the source is not
below the destination. -/
def memmoveDirection (c : Cpu) : Cpu :=
  let c := c.movwDsDx.movwDxEs.cld
  if c.edi ≤ c.esi then c else memmoveBackwards c

def memmove (c : Cpu) (dest src n : BitVec 32) : BitVec 32 × Cpu :=
  let c := { c with edi := dest, esi := src, ecx := n }
  (dest, (memmoveDirection c).rep Cpu.movsb)

/-- What `memset` and `memcpy` have in common: `left count` says how the state
stands when `count` bytes remain, a byte step takes one of them and the string
instruction takes four. -/
structure LoopInvariant (byteStep instruction : Cpu → Cpu)
    (left : Nat → Cpu → Prop) : Prop where
  byte : ∀ {count c}, left (count + 1) c → left count (byteStep c)
  word : ∀ {count c}, c.df = false → left (count + 4) c →
    left count (instruction c)
  scratch : ∀ {count c} ecx edx es df, left count c →
    left count { c with ecx := ecx, edx := edx, es := es, df := df }
  byte_ecx : ∀ c, (byteStep c).ecx = c.ecx
  byte_edx : ∀ c, (byteStep c).edx = c.edx
  word_edx : ∀ c, (instruction c).edx = c.edx
  word_df : ∀ c, (instruction c).df = c.df

namespace LoopInvariant

variable {byteStep instruction : Cpu → Cpu} {left : Nat → Cpu → Prop}
  {c : Cpu} {count fuel : Nat}

/-- A counter register of the loops, one step down. -/
theorem counter_succ {register : BitVec 32}
    (hregister : register.toNat = count + 1) :
    register ≠ 0#32 ∧ (register - 1#32).toNat = count := by
  constructor
  · rintro rfl
    exact absurd hregister.symm (Nat.succ_ne_zero count)
  · bv_omega

theorem bottom (h : LoopInvariant byteStep instruction left)
    (hleft : left count c) (hedx : c.edx.toNat = count)
    (hfuel : count < fuel) :
    ∃ after, loopBottom byteStep fuel c = some after ∧ left 0 after := by
  induction fuel generalizing count c with
  | zero => exact absurd hfuel (Nat.not_lt_zero count)
  | succ fuel ih =>
      rw [loopBottom]
      cases count with
      | zero =>
          rw [if_pos (BitVec.eq_of_toNat_eq hedx)]
          exact ⟨c, rfl, hleft⟩
      | succ count =>
          have hcounter := counter_succ hedx
          rw [if_neg hcounter.1]
          apply ih
          · exact h.scratch _ _ _ _ (h.byte hleft)
          · change ((byteStep c).edx - 1#32).toNat = count
            rw [h.byte_edx]
            exact hcounter.2
          · exact Nat.lt_of_succ_lt_succ hfuel

/-- The word body leaves fewer than four bytes, as many as `%edx` says. -/
theorem aligned (h : LoopInvariant byteStep instruction left)
    (hleft : left count c) (hecx : c.ecx.toNat = count) :
    left (count % 4) (loopAligned instruction c) ∧
      (loopAligned instruction c).edx.toNat = count % 4 := by
  have hrest : (loopCounts c).edx.toNat = count % 4 := by
    change (c.ecx &&& 0x3#32).toNat = count % 4
    rw [BitVec.toNat_and, hecx]
    exact Nat.and_two_pow_sub_one_eq_mod count 2
  have hwords : (loopCounts c).ecx.toNat = count / 4 := by
    change (c.ecx >>> 2).toNat = count / 4
    rw [BitVec.toNat_ushiftRight, hecx]
    exact Nat.shiftRight_eq_div_pow count 2
  have hstart : left count (loopCounts c) :=
    h.scratch (c := c) (loopCounts c).ecx (loopCounts c).edx
      (loopCounts c).es (loopCounts c).df hleft
  have hcount : count % 4 + 4 * (loopCounts c).ecx.toNat = count := by
    rw [hwords, Nat.mod_add_div]
  -- Every turn takes four bytes and leaves the count of the tail alone.
  have hbody := Cpu.turns_invariant
    (fun words now => now.df = false ∧ now.edx = (loopCounts c).edx ∧
      left (count % 4 + 4 * words) now) instruction
    (fun words now hnow => ⟨(h.word_df now).trans hnow.1,
      (h.word_edx now).trans hnow.2.1,
      h.scratch _ _ _ _ (h.word hnow.1 hnow.2.2)⟩)
    ⟨rfl, rfl, hcount.symm ▸ hstart⟩
  constructor
  · exact hbody.2.2
  · rw [← hrest, ← hbody.2.1]
    rfl

theorem top (h : LoopInvariant byteStep instruction left)
    (hleft : left count c) (hecx : c.ecx.toNat = count)
    (hfuel : count < fuel) :
    ∃ after, loopTop byteStep instruction fuel c = some after ∧
      left 0 after := by
  induction fuel generalizing count c with
  | zero => exact absurd hfuel (Nat.not_lt_zero count)
  | succ fuel ih =>
      rw [loopTop]
      cases count with
      | zero =>
          rw [if_pos (BitVec.eq_of_toNat_eq hecx)]
          exact ⟨c, rfl, hleft⟩
      | succ count =>
          have hcounter := counter_succ hecx
          rw [if_neg hcounter.1]
          split
          · obtain ⟨hrest, hedx⟩ := h.aligned hleft hecx
            apply h.bottom hrest hedx
            exact Nat.lt_of_le_of_lt (Nat.mod_le _ 4) hfuel
          · apply ih
            · exact h.scratch _ _ _ _ (h.byte hleft)
            · change ((byteStep c).ecx - 1#32).toNat = count
              rw [h.byte_ecx]
              exact hcounter.2
            · exact Nat.lt_of_succ_lt_succ hfuel

end LoopInvariant

theorem ofNat_toNat_self (word : BitVec 32) :
    BitVec.ofNat 32 word.toNat = word := by
  rw [BitVec.ofNat_toNat, BitVec.setWidth_eq]

/-- Each digit of a number written with one digit four times. -/
theorem div_pow_mod_of_repeated {digit i : Nat} (hdigit : digit < 256)
    (hi : i < 4) :
    (digit * 2 ^ 24 + (digit * 2 ^ 16 + (digit * 2 ^ 8 + digit))) /
      256 ^ i % 2 ^ 8 = digit := by
  -- The quotient first: `omega` does not find it under the remainder.
  have hquotient : ∃ high, (digit * 2 ^ 24 + (digit * 2 ^ 16 +
      (digit * 2 ^ 8 + digit))) / 256 ^ i = high * 2 ^ 8 + digit := by
    interval_cases i
    · exact ⟨digit * 2 ^ 16 + digit * 2 ^ 8 + digit, by omega⟩
    · exact ⟨digit * 2 ^ 8 + digit, by omega⟩
    · exact ⟨digit, by omega⟩
    · exact ⟨0, by omega⟩
  obtain ⟨high, hquotient⟩ := hquotient
  rw [hquotient]
  omega

/-- The word `memset` stores has the low byte of its argument in all four
places. -/
theorem wordByte_broadcast (value : BitVec 32) {i : Nat} (hi : i < 4) :
    wordByte
        (let value := value &&& 0xFF#32
        value <<< 24 ||| value <<< 16 ||| value <<< 8 ||| value) i =
      UInt8.ofNat value.toNat := by
  have hlow : (value &&& 0xFF#32).toNat = value.toNat % 256 := by
    rw [BitVec.toNat_and]
    exact Nat.and_two_pow_sub_one_eq_mod value.toNat 8
  have hbyte : (value &&& 0xFF#32).toNat < 256 := by omega
  generalize value &&& 0xFF#32 = low at hlow hbyte
  have hplace (k : Nat) (hk : k ≤ 24) (rest : Nat) (hrest : rest < 2 ^ k) :
      (low <<< k).toNat ||| rest = low.toNat * 2 ^ k + rest := by
    have hfits : low.toNat <<< k < 2 ^ 32 := by
      have hpow : 2 ^ k ≤ 2 ^ 24 := Nat.pow_le_pow_right (by decide) hk
      calc low.toNat <<< k = low.toNat * 2 ^ k := Nat.shiftLeft_eq _ _
        _ < 256 * 2 ^ 24 :=
          Nat.mul_lt_mul_of_lt_of_le hbyte hpow (by decide)
    rw [BitVec.toNat_shiftLeft, Nat.mod_eq_of_lt hfits,
      ← Nat.shiftLeft_add_eq_or_of_lt hrest, Nat.shiftLeft_eq]
  have hword : (low <<< 24 ||| low <<< 16 ||| low <<< 8 ||| low).toNat =
      low.toNat * 2 ^ 24 + (low.toNat * 2 ^ 16 +
        (low.toNat * 2 ^ 8 + low.toNat)) := by
    rw [BitVec.or_assoc, BitVec.or_assoc, BitVec.toNat_or, BitVec.toNat_or,
      BitVec.toNat_or, hplace 8 (by decide) _ (by omega),
      hplace 16 (by decide) _ (by omega), hplace 24 (by decide) _ (by omega)]
  apply UInt8.toNat_inj.mp
  rw [wordByte, hword, UInt8.toNat_ofNat', UInt8.toNat_ofNat', ← hlow]
  exact div_pow_mod_of_repeated hbyte hi

theorem memset_invariant (value : UInt8) (target : Memory UInt8) :
    LoopInvariant memsetByte Cpu.stosl (Cpu.FillsUp value target) where
  byte := by
    intro count c hleft
    have ⟨_, _, _, hword, _⟩ := hleft
    apply hleft.step
    · rfl
    · rfl
    · intro dst hdst hin
      change c.mem.store c.edi.toNat (wordByte c.eax 0) = _
      rw [hword 0 (by decide), hdst, toNat_ofNat_of_lt (by omega)]
      rfl
  word hdf hleft := hleft.stosl hdf
  scratch _ _ _ _ hleft := hleft
  byte_ecx _ := rfl
  byte_edx _ := rfl
  word_edx _ := rfl
  word_df _ := rfl

theorem memcpy_invariant (target : Memory UInt8) :
    LoopInvariant memcpyByte Cpu.movsl (Cpu.CopiesUp target) where
  byte := by
    intro count c hleft
    apply hleft.step
    · rfl
    · rfl
    · intro dst src hdst hsrc hdstIn hsrcIn _
      change c.mem.store c.edi.toNat c.movbEsiAl.al = _
      rw [Cpu.al_movbEsiAl, hdst, hsrc, toNat_ofNat_of_lt (by omega),
        toNat_ofNat_of_lt (by omega)]
      rfl
  word hdf hleft := hleft.movsl hdf
  scratch _ _ _ _ hleft := hleft
  byte_ecx _ := rfl
  byte_edx _ := rfl
  word_edx _ := rfl
  word_df _ := rfl

theorem memset_eq (c : Cpu) {s n : BitVec 32} (value : BitVec 32)
    (hrange : s.toNat + n.toNat ≤ 2 ^ 32) :
    ∃ after, memset c s value n = some (s, after) ∧
      after.mem = c.mem.fill s.toNat (UInt8.ofNat value.toNat) n.toNat := by
  obtain ⟨after, hrun, hdone⟩ :=
    (memset_invariant (UInt8.ofNat value.toNat) _).top
      (c := { c with
        eax :=
          let value := value &&& 0xFF#32
          value <<< 24 ||| value <<< 16 ||| value <<< 8 ||| value
        edi := s
        ecx := n })
      ⟨s.toNat, (ofNat_toNat_self s).symm, hrange,
        fun i hi => wordByte_broadcast value hi, rfl⟩ rfl n.isLt
  refine ⟨after, ?_, hdone.mem_eq⟩
  rw [memset, loopFuel, hrun]
  rfl

theorem memcpy_eq (c : Cpu) {dest src n : BitVec 32}
    (hdest : dest.toNat + n.toNat ≤ 2 ^ 32)
    (hsrc : src.toNat + n.toNat ≤ 2 ^ 32)
    (hsafe : dest.toNat ≤ src.toNat ∨ src.toNat + n.toNat ≤ dest.toNat) :
    ∃ after, memcpy c dest src n = some (dest, after) ∧
      after.mem = c.mem.copyUp dest.toNat src.toNat n.toNat := by
  obtain ⟨after, hrun, hdone⟩ := (memcpy_invariant _).top
    (c := { c with esi := src, edi := dest, ecx := n })
    ⟨dest.toNat, src.toNat, (ofNat_toNat_self dest).symm,
      (ofNat_toNat_self src).symm, hdest, hsrc, hsafe, rfl⟩ rfl n.isLt
  refine ⟨after, ?_, hdone.mem_eq⟩
  rw [memcpy, loopFuel, hrun]
  rfl

theorem memmoveDirection_up {c : Cpu} (hup : c.edi ≤ c.esi) :
    memmoveDirection c = c.movwDsDx.movwDxEs.cld :=
  if_pos hup

theorem memmoveDirection_down {c : Cpu} (hdown : ¬ c.edi ≤ c.esi) :
    memmoveDirection c = memmoveBackwards c.movwDsDx.movwDxEs.cld :=
  if_neg hdown

theorem memmove_eq (c : Cpu) {dest src n : BitVec 32}
    (hdest : dest.toNat + n.toNat ≤ 2 ^ 32)
    (hsrc : src.toNat + n.toNat ≤ 2 ^ 32) :
    (memmove c dest src n).2.mem =
      if dest ≤ src then c.mem.copyUp dest.toNat src.toNat n.toNat
      else c.mem.copyDown dest.toNat src.toNat n.toNat := by
  have hlast (base : BitVec 32) :
      base + n - 1#32 = BitVec.ofNat 32 (base.toNat + n.toNat) - 1#32 := by
    rw [BitVec.ofNat_add, ofNat_toNat_self, ofNat_toNat_self]
  rw [memmove]
  by_cases hup : dest ≤ src
  · rw [memmoveDirection_up hup, if_pos hup]
    apply Cpu.CopiesUp.rep_movsb
    · rfl
    · exact ⟨dest.toNat, src.toNat, (ofNat_toNat_self dest).symm,
        (ofNat_toNat_self src).symm, hdest, hsrc, Or.inl hup, rfl⟩
  · rw [memmoveDirection_down hup, if_neg hup]
    apply Cpu.CopiesDown.rep_movsb
    · rfl
    · exact ⟨dest.toNat, src.toNat, hlast dest, hlast src, hdest, hsrc, rfl⟩

/-- `after` is `before` with the `n` bytes from `src` on, as they were, in the
`n` bytes from `dest` on. -/
structure PlainCopy (before after : Memory UInt8) (dest src n : BitVec 32) :
    Prop where
  copied : ∀ i < n.toNat, after (dest.toNat + i) = before (src.toNat + i)
  kept : ∀ a, a < dest.toNat ∨ dest.toNat + n.toNat ≤ a → after a = before a

structure PlainSet (before after : Memory UInt8) (s n : BitVec 32)
    (byte : UInt8) : Prop where
  set : ∀ i < n.toNat, after (s.toNat + i) = byte
  kept : ∀ a, a < s.toNat ∨ s.toNat + n.toNat ≤ a → after a = before a

theorem PlainCopy.of_apply {before after : Memory UInt8}
    {dest src n : BitVec 32}
    (hafter : ∀ a, after a =
      if dest.toNat ≤ a ∧ a < dest.toNat + n.toNat then
        before (src.toNat + (a - dest.toNat))
      else before a) :
    PlainCopy before after dest src n where
  copied := by
    intro i hi
    rw [hafter, if_pos ⟨Nat.le_add_right _ _, Nat.add_lt_add_left hi _⟩,
      Nat.add_sub_cancel_left]
  kept := by
    intro a ha
    rw [hafter, if_neg (by omega)]

theorem PlainSet.of_fill (mem : Memory UInt8) (s n : BitVec 32)
    (byte : UInt8) :
    PlainSet mem (mem.fill s.toNat byte n.toNat) s n byte where
  set := by
    intro i hi
    rw [Memory.fill_apply,
      if_pos ⟨Nat.le_add_right _ _, Nat.add_lt_add_left hi _⟩]
  kept := by
    intro a ha
    rw [Memory.fill_apply, if_neg (by omega)]

/-- The memory routines do what their names say, at every alignment.
`memcpy` does so for disjoint ranges and for a destination at or below the
source, `memmove` for every overlap, and `memset` for every `int32_t`. -/
theorem memory_routines_plain (c : Cpu) (dest src n value : BitVec 32)
    (hdest : dest.toNat + n.toNat ≤ 2 ^ 32) :
    (src.toNat + n.toNat ≤ 2 ^ 32 →
      (dest.toNat + n.toNat ≤ src.toNat ∨ src.toNat + n.toNat ≤ dest.toNat ∨
        dest ≤ src) →
      ∃ after, memcpy c dest src n = some (dest, after) ∧
        PlainCopy c.mem after.mem dest src n) ∧
    (src.toNat + n.toNat ≤ 2 ^ 32 →
      ∃ after, memmove c dest src n = (dest, after) ∧
        PlainCopy c.mem after.mem dest src n) ∧
    (∃ after, memset c dest value n = some (dest, after) ∧
      PlainSet c.mem after.mem dest n (UInt8.ofNat value.toNat)) := by
  refine ⟨?_, ?_, ?_⟩
  · intro hsrc horder
    have hsafe : dest.toNat ≤ src.toNat ∨
        src.toNat + n.toNat ≤ dest.toNat := by
      rcases horder with hbelow | habove | hle
      · exact Or.inl (Nat.le_trans (Nat.le_add_right _ _) hbelow)
      · exact Or.inr habove
      · exact Or.inl hle
    obtain ⟨after, hrun, hmem⟩ := memcpy_eq c hdest hsrc hsafe
    refine ⟨after, hrun, PlainCopy.of_apply ?_⟩
    intro a
    rw [hmem, Memory.copyUp_apply c.mem hsafe]
  · intro hsrc
    refine ⟨(memmove c dest src n).2, rfl, PlainCopy.of_apply ?_⟩
    intro a
    rw [memmove_eq c hdest hsrc]
    by_cases hup : dest ≤ src
    · rw [if_pos hup, Memory.copyUp_apply c.mem (Or.inl hup)]
    · have hdown : src.toNat ≤ dest.toNat :=
        Nat.le_of_lt (Nat.lt_of_not_le hup)
      rw [if_neg hup, Memory.copyDown_apply c.mem hdown]
  · obtain ⟨after, hrun, hmem⟩ := memset_eq c value hdest
    refine ⟨after, hrun, ?_⟩
    rw [hmem]
    exact PlainSet.of_fill c.mem dest n (UInt8.ofNat value.toNat)

/-- Every byte of memory holds the low byte of its own address. -/
def countingCpu : Cpu where
  eax := 0
  ecx := 0
  edx := 0
  esi := 0
  edi := 0
  ds := 0
  es := 0
  df := true
  mem := fun a => UInt8.ofNat a

theorem overlapping_routines_plain :
    (∃ after, memcpy countingCpu 1#32 3#32 11#32 = some (1#32, after) ∧
      PlainCopy countingCpu.mem after.mem 1#32 3#32 11#32) ∧
    (∃ after, memmove countingCpu 1#32 3#32 11#32 = (1#32, after) ∧
      PlainCopy countingCpu.mem after.mem 1#32 3#32 11#32) ∧
    (∃ after, memset countingCpu 1#32 0xFFFFFFFE#32 11#32 =
        some (1#32, after) ∧
      PlainSet countingCpu.mem after.mem 1#32 11#32 0xFE) := by
  have hplain := memory_routines_plain countingCpu 1#32 3#32 11#32
    0xFFFFFFFE#32 (by decide)
  have hbelow : (1#32 : BitVec 32) ≤ 3#32 := by decide
  exact ⟨hplain.1 (by decide) (Or.inr (Or.inr hbelow)),
    hplain.2.1 (by decide), hplain.2.2⟩

end PsychOS
