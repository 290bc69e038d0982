/-
Strings in memory that end at a zero byte: what it means that a string is at an
address, its length as a loop finds it, and what is seen of it through a limit.
-/
import PsychOS.Lib.Memory

namespace PsychOS

/-- The bytes and a terminator are at the address. -/
def HoldsString (mem : Memory UInt8) (addr : Nat) (bytes : List UInt8) :
    Prop :=
  mem.load addr (bytes.length + 1) = bytes ++ [0]

/-- `strlen`, looking at no more than `fuel` bytes; `none` if there is no
terminator among them. -/
def strlenFrom (mem : Memory UInt8) (addr : Nat) : Nat → Option Nat
  | 0 => none
  | fuel + 1 =>
      if mem addr = 0 then some 0
      else (strlenFrom mem (addr + 1) fuel).map (· + 1)

section Strings

variable {mem : Memory UInt8} {addr : Nat} {bytes : List UInt8}

theorem holdsString_nil_iff : HoldsString mem addr [] ↔ mem addr = 0 := by
  simp [HoldsString, Memory.load]

theorem holdsString_cons_iff {byte : UInt8} :
    HoldsString mem addr (byte :: bytes) ↔
      mem addr = byte ∧ HoldsString mem (addr + 1) bytes := by
  rw [HoldsString, List.length_cons, mem.load_succ, List.cons_append,
    List.cons.injEq, HoldsString]

theorem holdsString_storeList (mem : Memory UInt8) (addr : Nat)
    (bytes : List UInt8) :
    HoldsString (mem.storeList addr (bytes ++ [0])) addr bytes := by
  have hload := mem.load_storeList addr (bytes ++ [0])
  rwa [List.length_append] at hload

/-- A terminator stored behind some bytes makes them a string. -/
theorem holdsString_store (hload : mem.load addr bytes.length = bytes) :
    HoldsString (mem.store (addr + bytes.length) 0) addr bytes := by
  have hbytes : (mem.store (addr + bytes.length) 0).load addr bytes.length =
      mem.load addr bytes.length := by
    apply Memory.load_congr
    intro i hi
    exact Memory.store_of_ne _ _ (by omega)
  rw [HoldsString, Memory.load_add, hbytes, hload, Memory.load_succ,
    Memory.store_same]
  rfl

theorem HoldsString.load_eq (hholds : HoldsString mem addr bytes) :
    mem.load addr bytes.length = bytes :=
  (@Memory.load_append_inj _ mem addr bytes [0] hholds).1

theorem HoldsString.congr {other : Memory UInt8}
    (hholds : HoldsString mem addr bytes)
    (hsame : ∀ i < bytes.length + 1, other (addr + i) = mem (addr + i)) :
    HoldsString other addr bytes :=
  (Memory.load_congr hsame).trans hholds

/-- Bytes filled in just before a string become part of it. -/
theorem HoldsString.fill {count : Nat} (byte : UInt8)
    (hholds : HoldsString mem (addr + count) bytes) :
    HoldsString (mem.fill addr byte count) addr
      (List.replicate count byte ++ bytes) := by
  induction count generalizing mem addr with
  | zero => exact hholds
  | succ count ih =>
      rw [Memory.fill, List.replicate_succ, List.cons_append,
        holdsString_cons_iff]
      constructor
      · rw [Memory.fill_apply, if_neg (by omega), Memory.store_same]
      · apply ih
        rw [Nat.add_assoc, Nat.add_comm 1]
        apply hholds.congr
        intro i _
        exact Memory.store_of_ne _ _ (by omega)

/-- The rest of a string behind some of its bytes. -/
theorem HoldsString.drop {first second : List UInt8}
    (hholds : HoldsString mem addr (first ++ second)) :
    HoldsString mem (addr + first.length) second := by
  induction first generalizing addr with
  | nil => exact hholds
  | cons byte rest ih =>
      have hrest := ih (holdsString_cons_iff.mp hholds).2
      rwa [Nat.add_assoc, Nat.add_comm 1] at hrest

/-- `strlen` finds the end of a string without terminators inside. -/
theorem strlenFrom_eq {fuel : Nat} (hholds : HoldsString mem addr bytes)
    (hnul : 0 ∉ bytes) (hfuel : bytes.length < fuel) :
    strlenFrom mem addr fuel = some bytes.length := by
  induction fuel generalizing addr bytes with
  | zero => exact absurd hfuel (Nat.not_lt_zero _)
  | succ fuel ih =>
      rw [strlenFrom]
      cases bytes with
      | nil => exact if_pos (holdsString_nil_iff.mp hholds)
      | cons byte rest =>
          obtain ⟨hhead, hholds⟩ := holdsString_cons_iff.mp hholds
          obtain ⟨hbyte, hnul⟩ := not_or.mp (mt List.mem_cons.mpr hnul)
          rw [hhead, if_neg (Ne.symm hbyte),
            ih hholds hnul (Nat.lt_of_succ_lt_succ hfuel)]
          rfl

/-- What is left of a string that is looked at up to its terminator or a
limit. -/
theorem HoldsString.takeWhile_load (hholds : HoldsString mem addr bytes)
    (hnul : 0 ∉ bytes) (limit : Nat) :
    (mem.load addr limit).takeWhile (· ≠ 0) = bytes.take limit := by
  induction limit generalizing addr bytes with
  | zero => rfl
  | succ limit ih =>
      rw [mem.load_succ]
      cases bytes with
      | nil =>
          rw [holdsString_nil_iff.mp hholds]
          rfl
      | cons byte rest =>
          obtain ⟨hhead, hholds⟩ := holdsString_cons_iff.mp hholds
          obtain ⟨hbyte, hnul⟩ := not_or.mp (mt List.mem_cons.mpr hnul)
          rw [hhead, List.takeWhile_cons_of_pos
            (by simpa using Ne.symm hbyte), ih hholds hnul]
          rfl

end Strings

end PsychOS
