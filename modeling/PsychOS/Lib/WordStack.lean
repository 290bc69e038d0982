/-
Words on a stack in a flat 32-bit memory of bytes.  A stack grows down from
its pointer and wraps around with the addresses; `StackAt` says which words
are there, and pushing and popping are reasoned about on that list.
-/
import PsychOS.Lib.StringInstructions

namespace PsychOS

section Words

variable {mem : Memory UInt8} {addr other word : BitVec 32}

/-- Words at these addresses have no byte in common. -/
def Apart (addr other : BitVec 32) : Prop :=
  4 ≤ (other - addr).toNat ∧ 4 ≤ (addr - other).toNat

/-- Bytes of words that are apart are at different addresses. -/
theorem Apart.byte_ne (hapart : Apart addr other) {i j : Nat} (hi : i < 4)
    (hj : j < 4) :
    (other + BitVec.ofNat 32 j).toNat ≠ (addr + BitVec.ofNat 32 i).toNat := by
  obtain ⟨habove, hbelow⟩ := hapart
  have haddr := addr.isLt
  have hother := other.isLt
  simp only [BitVec.toNat_sub, BitVec.toNat_add, BitVec.toNat_ofNat] at *
  omega

theorem storeWord_apply_of_ne (word : BitVec 32) {a : Nat}
    (hne : ∀ i < 4, a ≠ (addr + BitVec.ofNat 32 i).toNat) :
    storeWord mem addr word a = mem a := by
  have hzero := hne 0 (by decide)
  rw [show addr + BitVec.ofNat 32 0 = addr from BitVec.add_zero addr] at hzero
  rw [storeWord, Memory.store_of_ne _ _ (hne 3 (by decide)),
    Memory.store_of_ne _ _ (hne 2 (by decide)),
    Memory.store_of_ne _ _ (hne 1 (by decide)), Memory.store_of_ne _ _ hzero]

theorem storeWord_of_outside {a : Nat} (hwrap : addr.toNat + 4 ≤ 2 ^ 32)
    (houtside : a < addr.toNat ∨ addr.toNat + 4 ≤ a) :
    storeWord mem addr word a = mem a := by
  apply storeWord_apply_of_ne
  intro i hi
  simp only [BitVec.toNat_add, BitVec.toNat_ofNat]
  omega

theorem loadWord_storeWord_of_apart (hapart : Apart addr other)
    (word : BitVec 32) :
    loadWord (storeWord mem addr word) other = loadWord mem other := by
  have hbyte : ∀ j < 4, storeWord mem addr word
      (other + BitVec.ofNat 32 j).toNat =
      mem (other + BitVec.ofNat 32 j).toNat := by
    intro j hj
    exact storeWord_apply_of_ne word fun i hi => hapart.byte_ne hi hj
  have hzero := hbyte 0 (by decide)
  rw [show other + BitVec.ofNat 32 0 = other from BitVec.add_zero other]
    at hzero
  have hone := hbyte 1 (by decide)
  have htwo := hbyte 2 (by decide)
  have hthree := hbyte 3 (by decide)
  rw [loadWord, loadWord, hzero, hone, htwo, hthree]

theorem toNat_wordByte (word : BitVec 32) (i : Nat) :
    (wordByte word i).toNat = word.toNat / 256 ^ i % 256 :=
  UInt8.toNat_ofNat ..

/-- Bytes of one word are at different addresses. -/
theorem byte_addr_ne (addr : BitVec 32) {i j : Nat} (hi : i < 4) (hj : j < 4)
    (hne : i ≠ j) :
    (addr + BitVec.ofNat 32 j).toNat ≠ (addr + BitVec.ofNat 32 i).toNat := by
  have haddr := addr.isLt
  simp only [BitVec.toNat_add, BitVec.toNat_ofNat]
  omega

/-- What was written is read back. -/
theorem loadWord_storeWord (mem : Memory UInt8) (addr word : BitVec 32) :
    loadWord (storeWord mem addr word) addr = word := by
  have hzero : (addr + 0#32).toNat = addr.toNat := by rw [BitVec.add_zero]
  have h01 := byte_addr_ne addr (show 1 < 4 by decide) (show 0 < 4 by decide)
    (by decide)
  have h02 := byte_addr_ne addr (show 2 < 4 by decide) (show 0 < 4 by decide)
    (by decide)
  have h03 := byte_addr_ne addr (show 3 < 4 by decide) (show 0 < 4 by decide)
    (by decide)
  have h12 := byte_addr_ne addr (show 2 < 4 by decide) (show 1 < 4 by decide)
    (by decide)
  have h13 := byte_addr_ne addr (show 3 < 4 by decide) (show 1 < 4 by decide)
    (by decide)
  have h23 := byte_addr_ne addr (show 3 < 4 by decide) (show 2 < 4 by decide)
    (by decide)
  rw [hzero] at h01 h02 h03
  have hword := word.isLt
  apply BitVec.eq_of_toNat_eq
  rw [loadWord, storeWord, Memory.store_same, Memory.store_of_ne _ _ h23,
    Memory.store_same, Memory.store_of_ne _ _ h13,
    Memory.store_of_ne _ _ h12, Memory.store_same,
    Memory.store_of_ne _ _ h03, Memory.store_of_ne _ _ h02,
    Memory.store_of_ne _ _ h01, Memory.store_same, toNat_wordByte,
    toNat_wordByte, toNat_wordByte, toNat_wordByte, BitVec.toNat_ofNat]
  omega

end Words

/-- The words are on the stack from the pointer on. -/
def StackAt (mem : Memory UInt8) : BitVec 32 → List (BitVec 32) → Prop
  | _, [] => True
  | esp, word :: rest => loadWord mem esp = word ∧ StackAt mem (esp + 4) rest

/-- How many words a stack has at most, for one more to have room. -/
def maxStackWords : Nat := 2 ^ 28

section Stack

variable {mem : Memory UInt8} {esp addr word : BitVec 32}
  {words : List (BitVec 32)}

theorem toNat_four : BitVec.toNat (4 : BitVec 32) = 4 := rfl

/-- A store apart from all words of a stack. -/
theorem StackAt.store (hstack : StackAt mem esp words)
    (hapart : ∀ i < words.length,
      Apart addr (esp + BitVec.ofNat 32 (4 * i))) :
    StackAt (storeWord mem addr word) esp words := by
  induction words generalizing esp with
  | nil => trivial
  | cons first rest ih =>
      obtain ⟨hfirst, hrest⟩ := hstack
      constructor
      · have hhead := hapart 0 (Nat.succ_pos _)
        rw [show esp + BitVec.ofNat 32 (4 * 0) = esp from
          BitVec.add_zero esp] at hhead
        rw [loadWord_storeWord_of_apart hhead]
        exact hfirst
      · apply ih hrest
        intro i hi
        have hnext := hapart (i + 1) (Nat.succ_lt_succ hi)
        have haddr : esp + BitVec.ofNat 32 (4 * (i + 1)) =
            esp + 4 + BitVec.ofNat 32 (4 * i) := by
          apply BitVec.eq_of_toNat_eq
          simp only [BitVec.toNat_add, BitVec.toNat_ofNat, toNat_four]
          omega
        rwa [haddr] at hnext

/-- A push puts its word on top. -/
theorem StackAt.push (hstack : StackAt mem esp words)
    (hroom : words.length ≤ maxStackWords) (word : BitVec 32) :
    StackAt (storeWord mem (esp - 4) word) (esp - 4) (word :: words) := by
  refine ⟨loadWord_storeWord .., ?_⟩
  rw [BitVec.sub_add_cancel]
  apply hstack.store
  intro i hi
  have hesp := esp.isLt
  simp only [maxStackWords] at hroom
  simp only [Apart, BitVec.toNat_sub, BitVec.toNat_add, BitVec.toNat_ofNat,
    toNat_four]
  omega

theorem toNat_sub_four (hfour : 4 ≤ esp.toNat) :
    (esp - 4).toNat = esp.toNat - 4 := by
  have hesp := esp.isLt
  rw [BitVec.toNat_sub, toNat_four]
  omega

theorem toNat_sub_words {n : Nat}
    (hroom : 4 * n ≤ esp.toNat) :
    (esp - 4 * BitVec.ofNat 32 n).toNat = esp.toNat - 4 * n := by
  have hesp := esp.isLt
  rw [BitVec.toNat_sub, BitVec.toNat_mul, BitVec.toNat_ofNat, toNat_four]
  omega

theorem toNat_add_words {n : Nat}
    (hroom : esp.toNat + 4 * n < 2 ^ 32) :
    (esp + 4 * BitVec.ofNat 32 n).toNat = esp.toNat + 4 * n := by
  rw [BitVec.toNat_add, BitVec.toNat_mul, BitVec.toNat_ofNat, toNat_four]
  omega

/-- A word depends on its four bytes. -/
theorem loadWord_congr {mem' : Memory UInt8} (hwrap : addr.toNat + 4 ≤ 2 ^ 32)
    (hsame : Set.EqOn mem' mem (Set.Ico addr.toNat (addr.toNat + 4))) :
    loadWord mem' addr = loadWord mem addr := by
  have hbyte : ∀ i < 4, mem' (addr + BitVec.ofNat 32 i).toNat =
      mem (addr + BitVec.ofNat 32 i).toNat := by
    intro i hi
    apply hsame
    rw [Set.mem_Ico]
    simp only [BitVec.toNat_add, BitVec.toNat_ofNat]
    omega
  have hzero := hbyte 0 (by decide)
  rw [show addr + BitVec.ofNat 32 0 = addr from BitVec.add_zero addr] at hzero
  have hone := hbyte 1 (by decide)
  have htwo := hbyte 2 (by decide)
  have hthree := hbyte 3 (by decide)
  rw [loadWord, loadWord, hzero, hone, htwo, hthree]

/-- Words stay where no byte of them changes. -/
theorem StackAt.congr {mem' : Memory UInt8} (hstack : StackAt mem esp words)
    (hwrap : esp.toNat + 4 * words.length ≤ 2 ^ 32)
    (hsame : Set.EqOn mem' mem
      (Set.Ico esp.toNat (esp.toNat + 4 * words.length))) :
    StackAt mem' esp words := by
  induction words generalizing esp with
  | nil => trivial
  | cons word rest ih =>
      obtain ⟨hword, hrest⟩ := hstack
      rw [List.length_cons] at hwrap hsame
      constructor
      · rw [← hword]
        apply loadWord_congr (by omega)
        apply hsame.mono
        apply Set.Ico_subset_Ico_right
        omega
      · cases rest with
        | nil => trivial
        | cons second rest =>
            rw [List.length_cons] at hwrap hsame
            have hnext : (esp + 4).toNat = esp.toNat + 4 := by
              rw [BitVec.toNat_add, toNat_four]
              omega
            apply ih hrest
            · rw [hnext, List.length_cons]
              omega
            · apply hsame.mono
              apply Set.Ico_subset_Ico
              · omega
              · rw [hnext, List.length_cons]
                omega

theorem StackAt.of_append {first second : List (BitVec 32)}
    (hstack : StackAt mem esp (first ++ second)) :
    StackAt mem esp first := by
  induction first generalizing esp with
  | nil => trivial
  | cons word rest ih => exact ⟨hstack.1, ih hstack.2⟩

/-- The word at an index. -/
theorem StackAt.get (hstack : StackAt mem esp words) {i : Nat} {word}
    (hget : words[i]? = some word) :
    loadWord mem (esp + 4 * BitVec.ofNat 32 i) = word := by
  induction words generalizing esp i with
  | nil => cases hget
  | cons first rest ih =>
      cases i with
      | zero =>
          cases hget
          rw [show esp + 4 * BitVec.ofNat 32 0 = esp by simp]
          exact hstack.1
      | succ i =>
          have haddr : esp + 4 * BitVec.ofNat 32 (i + 1) =
              esp + 4 + 4 * BitVec.ofNat 32 i := by
            rw [BitVec.ofNat_add, BitVec.mul_add, BitVec.mul_one,
              BitVec.add_comm (4 * _), BitVec.add_assoc]
          rw [haddr]
          exact ih hstack.2 hget

end Stack

end PsychOS
