/-
A text laid out in rows of a fixed width, and the window that shows the last
rows of it.  A row ends at a break or when it is full, so there is always one
row in progress.
-/
import Mathlib.Data.List.Basic
import Mathlib.Tactic.Common

namespace PsychOS

universe u

/-- Rows of a text: the finished ones and the one in progress, which is not
full. -/
structure TextRows (α : Type u) (width : Nat) where
  finished : List (List α)
  current : List α
  current_lt : current.length < width

namespace TextRows

variable {α : Type u} {width : Nat}

theorem width_pos (rows : TextRows α width) : 0 < width :=
  Nat.lt_of_le_of_lt (Nat.zero_le _) rows.current_lt

def empty (hwidth : 0 < width) : TextRows α width := ⟨[], [], hwidth⟩

/-- End the row in progress, with `rest` at its end. -/
def endRow (rows : TextRows α width) (rest : List α) : TextRows α width :=
  ⟨rows.finished ++ [rows.current ++ rest], [], rows.width_pos⟩

/-- One more character. -/
def put (isBreak : α → Bool) (rows : TextRows α width) (ch : α) :
    TextRows α width :=
  if isBreak ch then rows.endRow []
  else if hroom : rows.current.length + 1 < width then
    ⟨rows.finished, rows.current ++ [ch], by rwa [List.length_append]⟩
  else rows.endRow [ch]

/-- All rows, the one in progress last. -/
def all (rows : TextRows α width) : List (List α) :=
  rows.finished ++ [rows.current]

@[simp]
theorem all_length (rows : TextRows α width) :
    rows.all.length = rows.finished.length + 1 := by
  simp [all]

theorem all_endRow (rows : TextRows α width) (rest : List α) :
    (rows.endRow rest).all =
      rows.finished ++ [rows.current ++ rest] ++ [[]] :=
  rfl

/-- The last rows, as many as the window is high. -/
def window (height : Nat) (rows : List (List α)) : List (List α) :=
  rows.drop (rows.length - height)

/-- What the window shows at row `y` and column `x`. -/
def cell (height : Nat) (rows : List (List α)) (y x : Nat) : Option α :=
  (window height rows)[y]?.bind fun row => row[x]?

theorem cell_eq (height : Nat) (rows : List (List α)) (y x : Nat) :
    cell height rows y x =
      rows[rows.length - height + y]?.bind fun row => row[x]? := by
  rw [cell, window, List.getElem?_drop]

/-- An empty row at the end shows nothing. -/
theorem getElem?_concat_nil (rows : List (List α)) (index x : Nat) :
    ((rows ++ [[]])[index]?.bind fun row => row[x]?) =
      rows[index]?.bind fun row => row[x]? := by
  rcases Nat.lt_trichotomy index rows.length with hlt | rfl | hgt
  · rw [List.getElem?_append_left hlt]
  · simp
  · rw [List.getElem?_eq_none (by simp; omega),
      List.getElem?_eq_none (by omega)]

/-- A new row appears below the others while there is room. -/
theorem cell_concat_nil_of_lt {height : Nat} {rows : List (List α)}
    (hroom : rows.length < height) (y x : Nat) :
    cell height (rows ++ [[]]) y x = cell height rows y x := by
  have htop : rows.length + 1 - height = rows.length - height := by omega
  rw [cell_eq, cell_eq, List.length_append, List.length_singleton, htop,
    getElem?_concat_nil]

/-- Else all rows move up by one. -/
theorem cell_concat_nil_of_ge {height : Nat} {rows : List (List α)}
    (hfull : height ≤ rows.length) (y x : Nat) :
    cell height (rows ++ [[]]) y x = cell height rows (y + 1) x := by
  have hindex : rows.length + 1 - height + y =
      rows.length - height + (y + 1) := by omega
  rw [cell_eq, cell_eq, List.length_append, List.length_singleton, hindex,
    getElem?_concat_nil]

/-- One more character in the last row. -/
theorem cell_extend {height : Nat} (hheight : 0 < height)
    (rows : List (List α)) (row : List α) (ch : α) {y : Nat}
    (hy : y < height) (x : Nat) :
    cell height (rows ++ [row ++ [ch]]) y x =
      if y = min (rows.length + 1) height - 1 ∧ x = row.length then some ch
      else cell height (rows ++ [row]) y x := by
  rw [cell_eq, cell_eq]
  simp only [List.length_append, List.length_singleton]
  generalize hindex : rows.length + 1 - height + y = index
  have hlast : y = min (rows.length + 1) height - 1 ↔
      index = rows.length := by omega
  simp only [hlast]
  by_cases hsame : index = rows.length
  · subst hsame
    simp only [List.getElem?_concat_length, Option.bind_some, true_and]
    rcases Nat.lt_trichotomy x row.length with hlt | rfl | hgt
    · rw [List.getElem?_append_left hlt, if_neg (by omega)]
    · simp
    · rw [List.getElem?_eq_none (by simp; omega), if_neg (by omega),
        List.getElem?_eq_none (by omega)]
  · rw [if_neg (fun h => hsame h.1)]
    rcases Nat.lt_or_ge index rows.length with hlt | hge
    · rw [List.getElem?_append_left hlt, List.getElem?_append_left hlt]
    · rw [List.getElem?_eq_none (by simp; omega),
        List.getElem?_eq_none (by simp; omega)]

end TextRows

end PsychOS
