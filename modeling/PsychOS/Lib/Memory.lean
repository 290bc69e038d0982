/-
Flat memories: total functions from addresses to cells, together with the
store, the `rep stos` fill and the ascending `rep movs` copy that the kernel's
loops are made of.  The cell type is a parameter, so the same facts serve the
bytes of user memory and the 16-bit words of video memory.
-/
import Mathlib.Logic.Function.Basic
import Mathlib.Data.List.Basic
import Mathlib.Tactic.Common

namespace PsychOS

universe u

/-- A memory of cells of type `α`, indexed by address. -/
abbrev Memory (α : Type u) := Nat → α

/-- A loop over the first `count` entries of a table changes each of them
once. -/
theorem foldl_update_apply {α : Type u} (f : α → α) (table : Nat → α)
    (count slot : Nat) :
    (List.range count).foldl
        (fun table i => Function.update table i (f (table i))) table slot =
      if slot < count then f (table slot) else table slot := by
  induction count with
  | zero => rfl
  | succ count ih =>
      rw [List.range_succ, List.foldl_append, List.foldl_cons, List.foldl_nil]
      by_cases hlast : slot = count
      · subst hlast
        rw [if_neg (Nat.lt_irrefl slot)] at ih
        rw [Function.update_self, ih, if_pos (Nat.lt_succ_self slot)]
      · have hiff : slot < count ↔ slot < count + 1 := by omega
        rw [Function.update_of_ne hlast, ih]
        simp only [hiff]

namespace Memory

variable {α : Type u}

/-- Write one cell. -/
def store (mem : Memory α) (addr : Nat) (value : α) : Memory α :=
  fun a => if a = addr then value else mem a

@[simp]
theorem store_same (mem : Memory α) (addr : Nat) (value : α) :
    mem.store addr value addr = value := by
  simp [store]

theorem store_of_ne (mem : Memory α) {addr a : Nat} (value : α)
    (hne : a ≠ addr) : mem.store addr value a = mem a := by
  simp [store, hne]

/-- `rep stos` with the direction flag clear: `count` cells from `addr` on. -/
def fill (mem : Memory α) (addr : Nat) (value : α) : Nat → Memory α
  | 0 => mem
  | count + 1 => (mem.store addr value).fill (addr + 1) value count

theorem fill_apply (mem : Memory α) (addr : Nat) (value : α) (count a : Nat) :
    mem.fill addr value count a =
      if addr ≤ a ∧ a < addr + count then value else mem a := by
  induction count generalizing mem addr with
  | zero =>
      have hempty : ¬ (addr ≤ a ∧ a < addr + 0) := by omega
      rw [fill, if_neg hempty]
  | succ count ih =>
      rw [fill, ih]
      by_cases hhead : a = addr
      · subst hhead
        have hnot : ¬ (a + 1 ≤ a ∧ a < a + 1 + count) := by omega
        have hin : a ≤ a ∧ a < a + (count + 1) := by omega
        rw [if_neg hnot, if_pos hin, store_same]
      · have hiff : (addr + 1 ≤ a ∧ a < addr + 1 + count) ↔
            (addr ≤ a ∧ a < addr + (count + 1)) := by omega
        rw [store_of_ne mem value hhead]
        simp only [hiff]

theorem fill_add (mem : Memory α) (addr : Nat) (value : α)
    (first second : Nat) :
    mem.fill addr value (first + second) =
      (mem.fill addr value first).fill (addr + first) value second := by
  induction first generalizing mem addr with
  | zero => rw [Nat.zero_add, Nat.add_zero, fill]
  | succ first ih =>
      rw [Nat.succ_add, fill, fill, ih, Nat.add_assoc, Nat.add_comm 1]

/-- `rep movs` with the direction flag clear: cells are copied one at a time,
lowest address first, each load seeing the stores before it. -/
def copyUp (mem : Memory α) (dst src : Nat) : Nat → Memory α
  | 0 => mem
  | count + 1 =>
      (mem.store dst (mem src)).copyUp (dst + 1) (src + 1) count

theorem copyUp_add (mem : Memory α) (dst src first second : Nat) :
    mem.copyUp dst src (first + second) =
      (mem.copyUp dst src first).copyUp (dst + first) (src + first)
        second := by
  induction first generalizing mem dst src with
  | zero => rw [Nat.zero_add, Nat.add_zero, Nat.add_zero, copyUp]
  | succ first ih =>
      rw [Nat.succ_add, copyUp, copyUp, ih, Nat.add_assoc, Nat.add_assoc,
        Nat.add_comm 1]

/-- `rep movs` with the direction flag set: highest address first. -/
def copyDown (mem : Memory α) (dst src : Nat) : Nat → Memory α
  | 0 => mem
  | count + 1 =>
      (mem.store (dst + count) (mem (src + count))).copyDown dst src count

/-- A descending copy is a plain copy if the destination is not below the
source. -/
theorem copyDown_apply (mem : Memory α) {dst src count : Nat}
    (hsafe : src ≤ dst) (a : Nat) :
    mem.copyDown dst src count a =
      if dst ≤ a ∧ a < dst + count then mem (src + (a - dst)) else mem a := by
  induction count generalizing mem with
  | zero =>
      have hempty : ¬ (dst ≤ a ∧ a < dst + 0) := by omega
      rw [copyDown, if_neg hempty]
  | succ count ih =>
      rw [copyDown, ih]
      by_cases hlast : a = dst + count
      · subst hlast
        have hnot : ¬ (dst ≤ dst + count ∧ dst + count < dst + count) := by
          omega
        have hin : dst ≤ dst + count ∧ dst + count < dst + (count + 1) := by
          omega
        rw [if_neg hnot, if_pos hin, store_same, Nat.add_sub_cancel_left]
      · have hiff : (dst ≤ a ∧ a < dst + count) ↔
            (dst ≤ a ∧ a < dst + (count + 1)) := by omega
        rw [store_of_ne _ _ hlast]
        simp only [hiff]
        split
        · exact store_of_ne _ _ (by omega)
        · rfl

/-- An ascending copy is a plain copy as soon as no source cell is overwritten
before it is read. -/
theorem copyUp_apply (mem : Memory α) {dst src count : Nat}
    (hsafe : dst ≤ src ∨ src + count ≤ dst) (a : Nat) :
    mem.copyUp dst src count a =
      if dst ≤ a ∧ a < dst + count then mem (src + (a - dst)) else mem a := by
  induction count generalizing mem dst src with
  | zero =>
      have hempty : ¬ (dst ≤ a ∧ a < dst + 0) := by omega
      rw [copyUp, if_neg hempty]
  | succ count ih =>
      rw [copyUp, ih (mem.store dst (mem src)) (by omega)]
      by_cases hhead : a = dst
      · subst hhead
        have hnot : ¬ (a + 1 ≤ a ∧ a < a + 1 + count) := by omega
        have hin : a ≤ a ∧ a < a + (count + 1) := by omega
        rw [if_neg hnot, if_pos hin, store_same]
        congr 1
        omega
      · by_cases hin : dst + 1 ≤ a ∧ a < dst + 1 + count
        · have hout : dst ≤ a ∧ a < dst + (count + 1) := by omega
          have hne : src + 1 + (a - (dst + 1)) ≠ dst := by omega
          rw [if_pos hin, if_pos hout, store_of_ne mem _ hne]
          congr 1
          omega
        · have hout : ¬ (dst ≤ a ∧ a < dst + (count + 1)) := by omega
          rw [if_neg hin, if_neg hout, store_of_ne mem _ hhead]

/-- A loop that stores `value i` to cell `i` of an array. -/
def storeEach (mem : Memory α) (addr : Nat) (value : Nat → α) :
    Nat → Memory α
  | 0 => mem
  | count + 1 =>
      (mem.storeEach addr value count).store (addr + count) (value count)

theorem storeEach_apply (mem : Memory α) (addr : Nat) (value : Nat → α)
    (count a : Nat) :
    mem.storeEach addr value count a =
      if addr ≤ a ∧ a < addr + count then value (a - addr) else mem a := by
  induction count with
  | zero =>
      have hempty : ¬ (addr ≤ a ∧ a < addr + 0) := by omega
      rw [storeEach, if_neg hempty]
  | succ count ih =>
      rw [storeEach]
      by_cases hlast : a = addr + count
      · subst hlast
        have hin : addr ≤ addr + count ∧
            addr + count < addr + (count + 1) := by omega
        rw [store_same, if_pos hin, Nat.add_sub_cancel_left]
      · have hiff : (addr ≤ a ∧ a < addr + count) ↔
            (addr ≤ a ∧ a < addr + (count + 1)) := by omega
        rw [store_of_ne _ _ hlast, ih]
        simp only [hiff]

/-- Read `count` consecutive cells. -/
def load (mem : Memory α) (addr count : Nat) : List α :=
  (List.range count).map fun i => mem (addr + i)

@[simp]
theorem load_length (mem : Memory α) (addr count : Nat) :
    (mem.load addr count).length = count := by
  simp [load]

theorem load_add (mem : Memory α) (addr first second : Nat) :
    mem.load addr (first + second) =
      mem.load addr first ++ mem.load (addr + first) second := by
  simp only [load, List.range_add, List.map_append, List.map_map]
  congr 1
  apply List.map_congr_left
  intro i _
  simp [Nat.add_assoc]

theorem load_succ (mem : Memory α) (addr count : Nat) :
    mem.load addr (count + 1) = mem addr :: mem.load (addr + 1) count := by
  rw [Nat.add_comm count 1, load_add]
  rfl

theorem load_congr {mem mem' : Memory α} {addr addr' count : Nat}
    (hsame : ∀ i < count, mem (addr + i) = mem' (addr' + i)) :
    mem.load addr count = mem'.load addr' count := by
  apply List.map_congr_left
  intro i hi
  exact hsame i (List.mem_range.mp hi)

/-- Both parts of what a range holds. -/
theorem load_append_inj {mem : Memory α} {addr : Nat} {first second : List α}
    (hload : mem.load addr (first.length + second.length) = first ++ second) :
    mem.load addr first.length = first ∧
      mem.load (addr + first.length) second.length = second := by
  rw [load_add] at hload
  exact List.append_inj hload (load_length ..)

/-- A piece of a loaded range is a loaded range. -/
theorem load_drop_take (mem : Memory α) (addr total offset count : Nat) :
    ((mem.load addr total).drop offset).take count =
      mem.load (addr + offset) (min count (total - offset)) := by
  apply List.ext_getElem
  · simp
  · intro i hi hi'
    simp [load, Nat.add_assoc]

/-- Write a list of cells to consecutive addresses. -/
def storeList (mem : Memory α) (addr : Nat) : List α → Memory α
  | [] => mem
  | value :: rest => (mem.store addr value).storeList (addr + 1) rest

theorem storeList_of_outside (mem : Memory α) {addr a : Nat} {values : List α}
    (houtside : a < addr ∨ addr + values.length ≤ a) :
    mem.storeList addr values a = mem a := by
  induction values generalizing mem addr with
  | nil => rfl
  | cons value rest ih =>
      rw [List.length_cons] at houtside
      rw [storeList, ih (mem.store addr value) (by omega),
        store_of_ne mem value (by omega)]

/-- What was written is read back. -/
theorem load_storeList (mem : Memory α) (addr : Nat) (values : List α) :
    (mem.storeList addr values).load addr values.length = values := by
  induction values generalizing mem addr with
  | nil => rfl
  | cons value rest ih =>
      have hhead : (mem.store addr value).storeList (addr + 1) rest addr =
          value := by
        rw [storeList_of_outside _ (Or.inl (Nat.lt_succ_self addr)),
          store_same]
      rw [storeList, List.length_cons, load_succ, ih, hhead]

theorem storeList_append (mem : Memory α) (addr : Nat)
    (first second : List α) :
    mem.storeList addr (first ++ second) =
      (mem.storeList addr first).storeList (addr + first.length) second := by
  induction first generalizing mem addr with
  | nil => rfl
  | cons value rest ih =>
      rw [List.cons_append, storeList, ih, storeList, List.length_cons,
        Nat.add_assoc, Nat.add_comm 1]

theorem storeList_getElem (mem : Memory α) (addr : Nat) {values : List α}
    {i : Nat} (hi : i < values.length) :
    mem.storeList addr values (addr + i) = values[i] := by
  have hload := List.getElem_of_eq (mem.load_storeList addr values)
    (by rwa [load_length])
  simpa [load] using hload

/-- A cell after a list was written, by its place in the list. -/
theorem storeList_apply (mem : Memory α) (addr : Nat) (values : List α)
    (a : Nat) :
    mem.storeList addr values a =
      if addr ≤ a then values[a - addr]?.getD (mem a) else mem a := by
  split
  · next hle =>
      by_cases hin : a - addr < values.length
      · obtain ⟨i, rfl⟩ := Nat.exists_eq_add_of_le hle
        rw [Nat.add_sub_cancel_left] at hin ⊢
        rw [storeList_getElem mem addr hin, List.getElem?_eq_getElem hin]
        rfl
      · rw [storeList_of_outside mem (Or.inr (by omega)),
          List.getElem?_eq_none (Nat.le_of_not_lt hin)]
        rfl
  · next hlt => exact storeList_of_outside mem (Or.inl (Nat.lt_of_not_le hlt))

/-- The cells of a range in the opposite order. -/
def reverseRange (mem : Memory α) (addr count : Nat) : Memory α :=
  fun a => if addr ≤ a ∧ a < addr + count then
    mem (addr + (addr + count - 1 - a)) else mem a

theorem reverseRange_of_le_one (mem : Memory α) (addr : Nat) {count : Nat}
    (hcount : count ≤ 1) : mem.reverseRange addr count = mem := by
  funext a
  rw [reverseRange]
  split
  · congr 1
    omega
  · rfl

/-- Two cells change places and then the range between them is reversed. -/
theorem reverseRange_swap (mem : Memory α) (addr count : Nat) :
    ((mem.store (addr + count + 1) (mem addr)).store addr
        (mem (addr + count + 1))).reverseRange (addr + 1) count =
      mem.reverseRange addr (count + 2) := by
  funext a
  simp only [reverseRange, store]
  by_cases hfirst : a = addr
  · subst hfirst
    rw [if_neg (by omega), if_pos rfl, if_pos (by omega)]
    congr 1
    omega
  · by_cases hlast : a = addr + count + 1
    · subst hlast
      rw [if_neg (by omega), if_neg hfirst, if_pos rfl, if_pos (by omega)]
      congr 1
      omega
    · by_cases hin : addr + 1 ≤ a ∧ a < addr + 1 + count
      · rw [if_pos hin, if_neg (by omega), if_neg (by omega),
          if_pos (by omega)]
        congr 1
        omega
      · rw [if_neg hin, if_neg hfirst, if_neg hlast, if_neg (by omega)]

/-- Turning around what was just written is writing it the other way round. -/
theorem reverseRange_storeList (mem : Memory α) (addr : Nat)
    (values rest : List α) :
    (mem.storeList addr (values ++ rest)).reverseRange addr values.length =
      mem.storeList addr (values.reverse ++ rest) := by
  funext a
  simp only [reverseRange, storeList_apply]
  by_cases hin : addr ≤ a ∧ a < addr + values.length
  · have hback : addr + values.length - 1 - a < values.length := by omega
    have hplace : a - addr < values.reverse.length := by
      rw [List.length_reverse]
      omega
    have hswap : values.length - 1 - (a - addr) =
        addr + values.length - 1 - a := by omega
    rw [if_pos hin, if_pos (Nat.le_add_right _ _), if_pos hin.1,
      Nat.add_sub_cancel_left, List.getElem?_append_left hback,
      List.getElem?_append_left hplace, List.getElem?_reverse (by omega),
      hswap, List.getElem?_eq_getElem hback]
    rfl
  · rw [if_neg hin]
    by_cases hle : addr ≤ a
    · rw [if_pos hle, if_pos hle, List.getElem?_append_right (by omega),
        List.getElem?_append_right (by rw [List.length_reverse]; omega),
        List.length_reverse]
    · rw [if_neg hle, if_neg hle]

end Memory

end PsychOS
