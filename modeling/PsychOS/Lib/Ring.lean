/-
Circular windows of a flat memory.  A block of `cap` cells starting at `lo` is
read cyclically from a head pointer.  The pointer arithmetic of hand-written
ring buffers (step and reset at the end, step back and jump to the end) is
related once to positions modulo the capacity.
-/
import Mathlib.Data.Nat.ModEq
import PsychOS.Lib.Memory

namespace PsychOS

universe u

namespace Ring

variable {α : Type u} {lo cap head : Nat}

/-- The address `i` cells after `head`, cyclically in `[lo, lo + cap)`. -/
def slot (lo cap head i : Nat) : Nat :=
  lo + (head - lo + i) % cap

/-- Pointer increment with wrap-around at the end of the block. -/
def advance (lo hi ptr : Nat) : Nat :=
  if ptr + 1 ≥ hi then lo else ptr + 1

/-- Pointer decrement with wrap-around at the start of the block. -/
def retreat (lo hi ptr : Nat) : Nat :=
  if ptr - 1 < lo then hi - 1 else ptr - 1

theorem le_slot (lo cap head i : Nat) : lo ≤ slot lo cap head i :=
  Nat.le_add_right lo _

theorem slot_lt (lo head : Nat) (hcap : 0 < cap) (i : Nat) :
    slot lo cap head i < lo + cap :=
  Nat.add_lt_add_left (Nat.mod_lt _ hcap) lo

theorem slot_zero (hlo : lo ≤ head) (hhi : head < lo + cap) :
    slot lo cap head 0 = head := by
  have hmod : (head - lo + 0) % cap = head - lo :=
    Nat.mod_eq_of_lt (by omega)
  rw [slot, hmod]
  omega

theorem slot_slot (lo cap head i j : Nat) :
    slot lo cap (slot lo cap head i) j = slot lo cap head (i + j) := by
  simp only [slot, Nat.add_sub_cancel_left, Nat.mod_add_mod, Nat.add_assoc]

theorem slot_inj {i j : Nat} (hi : i < cap) (hj : j < cap)
    (heq : slot lo cap head i = slot lo cap head j) : i = j := by
  have hmod : head - lo + i ≡ head - lo + j [MOD cap] :=
    Nat.add_left_cancel heq
  have hcancel : i ≡ j [MOD cap] := Nat.ModEq.add_left_cancel' _ hmod
  exact Nat.ModEq.eq_of_lt_of_lt hcancel hi hj

theorem advance_slot (lo head : Nat) (hcap : 0 < cap) (i : Nat) :
    advance lo (lo + cap) (slot lo cap head i) = slot lo cap head (i + 1) := by
  have hlt : (head - lo + i) % cap < cap := Nat.mod_lt _ hcap
  have hnext : (head - lo + (i + 1)) % cap =
      ((head - lo + i) % cap + 1) % cap := by
    rw [Nat.mod_add_mod, Nat.add_assoc]
  rw [slot, slot, advance, hnext]
  by_cases hend : (head - lo + i) % cap + 1 = cap
  · rw [if_pos (by omega), hend, Nat.mod_self, Nat.add_zero]
  · have hwrap : ((head - lo + i) % cap + 1) % cap =
        (head - lo + i) % cap + 1 := Nat.mod_eq_of_lt (by omega)
    rw [if_neg (by omega), hwrap, Nat.add_assoc]

theorem retreat_slot (hlo : 0 < lo) (hcap : 0 < cap) (i : Nat) :
    retreat lo (lo + cap) (slot lo cap head (i + 1)) =
      slot lo cap head i := by
  have hlt : (head - lo + i) % cap < cap := Nat.mod_lt _ hcap
  rw [← advance_slot lo head hcap i, slot, advance, retreat]
  split <;> split <;> omega

/-- The `len` cells read cyclically from `head`. -/
def window (mem : Memory α) (lo cap head len : Nat) : List α :=
  (List.range len).map fun i => mem (slot lo cap head i)

@[simp]
theorem window_length (mem : Memory α) (lo cap head len : Nat) :
    (window mem lo cap head len).length = len := by
  simp [window]

@[simp]
theorem window_zero (mem : Memory α) (lo cap head : Nat) :
    window mem lo cap head 0 = [] := rfl

theorem window_succ_back (mem : Memory α) (lo cap head len : Nat) :
    window mem lo cap head (len + 1) =
      window mem lo cap head len ++ [mem (slot lo cap head len)] := by
  simp [window, List.range_succ]

theorem window_succ_front (mem : Memory α) (len : Nat) :
    window mem lo cap head (len + 1) =
      mem (slot lo cap head 0) ::
        window mem lo cap (slot lo cap head 1) len := by
  simp only [window, List.range_succ_eq_map, List.map_cons, List.map_map,
    List.cons.injEq, true_and]
  apply List.map_congr_left
  intro i _
  simp only [Function.comp_apply, slot_slot, Nat.add_comm 1 i, Nat.succ_eq_add_one]

theorem window_congr {mem mem' : Memory α} {len : Nat} (hcap : 0 < cap)
    (hagree : ∀ a, lo ≤ a → a < lo + cap → mem a = mem' a) :
    window mem lo cap head len = window mem' lo cap head len := by
  apply List.map_congr_left
  intro i _
  exact hagree _ (le_slot lo cap head i) (slot_lt lo head hcap i)

/-- Writing the cell just past a window that is not full appends to it. -/
theorem window_store_back (mem : Memory α) (value : α) {len : Nat}
    (hroom : len < cap) :
    window (mem.store (slot lo cap head len) value) lo cap head (len + 1) =
      window mem lo cap head len ++ [value] := by
  rw [window_succ_back, Memory.store_same]
  congr 1
  apply List.map_congr_left
  intro i hi
  have hlt : i < len := List.mem_range.mp hi
  apply Memory.store_of_ne
  intro heq
  have hsame := slot_inj (by omega) hroom heq
  omega

theorem window_drop (mem : Memory α) (count len : Nat) :
    (window mem lo cap head len).drop count =
      window mem lo cap (slot lo cap head count) (len - count) := by
  apply List.ext_getElem
  · simp
  · intro i hleft hright
    simp [window, slot_slot]

theorem window_take (mem : Memory α) (count len : Nat) :
    (window mem lo cap head len).take count =
      window mem lo cap head (min count len) := by
  apply List.ext_getElem
  · simp
  · intro i hleft hright
    simp [window]

end Ring

end PsychOS
