/-
Singly linked lists in a store of cells.  A list is given by the link that
holds its first cell and by the link inside each cell; which cells it has is
read off by following the links.  Nothing says that following them ends: a
store holds a list exactly when it does, and then no cell comes twice.
-/
import Mathlib.Data.List.Nodup
import Mathlib.Data.List.Perm.Subperm
import Mathlib.Logic.Function.Basic

namespace PsychOS

universe u

/-- The links of a list: its head and the link inside each cell. -/
structure Links (α : Type u) where
  head : Option α
  next : α → Option α

/-- Following `next` from `head` visits `cells` in order and then ends. -/
inductive Linked {α : Type u} (next : α → Option α) :
    Option α → List α → Prop where
  | nil : Linked next none []
  | cons {cell : α} {rest : List α} (tail : Linked next (next cell) rest) :
      Linked next (some cell) (cell :: rest)

namespace Linked

variable {α : Type u} {next : α → Option α} {head : Option α}
  {cells front back : List α} {cell : α}

theorem unique {other : List α} (hcells : Linked next head cells)
    (hother : Linked next head other) : cells = other := by
  induction hcells generalizing other with
  | nil =>
      cases hother
      rfl
  | cons _ ih =>
      cases hother with
      | cons htail => rw [ih htail]

/-- From any of its cells on, the rest of a list is a list. -/
theorem of_append (h : Linked next head (front ++ cell :: back)) :
    Linked next (some cell) (cell :: back) := by
  induction front generalizing head with
  | nil =>
      cases h with
      | cons htail => exact .cons htail
  | cons first front ih =>
      cases h with
      | cons htail => exact ih htail

theorem head_eq (h : Linked next head cells) : head = cells.head? := by
  cases h with
  | nil => rfl
  | cons _ => rfl

/-- A list that came back to a cell would never end. -/
theorem nodup (h : Linked next head cells) : cells.Nodup := by
  induction h with
  | nil => exact List.nodup_nil
  | @cons cell rest htail ih =>
      apply List.nodup_cons.mpr
      refine ⟨?_, ih⟩
      intro hagain
      obtain ⟨front, back, rfl⟩ := List.append_of_mem hagain
      have hsame : front ++ cell :: back = back := by
        have hcells := (cons htail).unique htail.of_append
        exact (List.cons.inj hcells).2
      have hlength := congrArg List.length hsame
      simp only [List.length_append, List.length_cons] at hlength
      omega

/-- Only the links inside the cells matter. -/
theorem congr {next' : α → Option α} (h : Linked next head cells)
    (hsame : ∀ cell ∈ cells, next' cell = next cell) :
    Linked next' head cells := by
  induction h with
  | nil => exact .nil
  | @cons cell rest _ ih =>
      obtain ⟨hcell, hrest⟩ := List.forall_mem_cons.mp hsame
      apply cons
      rw [hcell]
      exact ih hrest

theorem length_le {bound : Nat} {next : Nat → Option Nat} {head : Option Nat}
    {cells : List Nat} (h : Linked next head cells)
    (hbound : ∀ cell ∈ cells, cell < bound) : cells.length ≤ bound := by
  have hsub : cells ⊆ List.range bound := fun cell hcell =>
    List.mem_range.mpr (hbound cell hcell)
  simpa using (List.subperm_of_subset h.nodup hsub).length_le

end Linked

namespace Links

variable {α : Type u} {links : Links α} {cells front back : List α} {cell : α}

def Holds (links : Links α) (cells : List α) : Prop :=
  Linked links.next links.head cells

/-- A link is stored in the head, or inside a cell. -/
def get (links : Links α) : Option α → Option α
  | none => links.head
  | some cell => links.next cell

variable [DecidableEq α]

def set (links : Links α) (value : Option α) : Option α → Links α
  | none => { links with head := value }
  | some cell => { links with next := Function.update links.next cell value }

/-- A new cell in front, linked to what the head was. -/
theorem Holds.push (h : links.Holds cells) (hnew : cell ∉ cells) :
    Holds ((links.set links.head (some cell)).set (some cell) none)
      (cell :: cells) := by
  apply Linked.cons
  simp only [set, Function.update_self]
  apply Linked.congr h
  intro other hother
  apply Function.update_of_ne
  rintro rfl
  exact hnew hother

/-- Setting the link before a cell to the link inside it takes the cell out of
the list. -/
theorem Holds.unlink (h : links.Holds (front ++ cell :: back)) :
    Holds (links.set (links.next cell) front.getLast?) (front ++ back) := by
  have hnodup : (front ++ cell :: back).Nodup := Linked.nodup h
  have hback : Linked links.next (links.next cell) back := by
    cases Linked.of_append h with
    | cons htail => exact htail
  rcases List.eq_nil_or_concat' front with rfl | ⟨earlier, last, rfl⟩
  · exact hback
  · rw [List.getLast?_concat, List.append_assoc, List.singleton_append]
    rw [List.append_assoc, List.singleton_append] at hnodup
    rw [Holds, List.append_assoc, List.singleton_append] at h
    simp only [Holds, set]
    generalize links.head = head at h ⊢
    induction earlier generalizing head with
    | nil =>
        cases h with
        | cons _ =>
            apply Linked.cons
            rw [Function.update_self]
            apply hback.congr
            intro other hother
            apply Function.update_of_ne
            rintro rfl
            exact (List.nodup_cons.mp hnodup).1
              (List.mem_cons_of_mem cell hother)
    | cons first earlier ih =>
        cases h with
        | cons htail =>
            obtain ⟨hfirst, hnodup⟩ := List.nodup_cons.mp hnodup
            have hne : first ≠ last := by
              rintro rfl
              exact hfirst (List.mem_append_right earlier List.mem_cons_self)
            apply Linked.cons
            rw [Function.update_of_ne hne]
            exact ih hnodup _ htail

end Links

section FirstMatch

variable {α β : Type u}

/-- Change the first entry that `p` selects. -/
def modifyFirst (p : α → Bool) (f : α → α) : List α → List α
  | [] => []
  | a :: rest => if p a then f a :: rest else a :: modifyFirst p f rest

theorem modifyFirst_append {p : α → Bool} {f : α → α} {front back : List α}
    {a : α} (hfront : ∀ b ∈ front, ¬ p b) (ha : p a) :
    modifyFirst p f (front ++ a :: back) = front ++ f a :: back := by
  induction front with
  | nil => simp [modifyFirst, ha]
  | cons first front ih =>
      obtain ⟨hfirst, hfront⟩ := List.forall_mem_cons.mp hfront
      simp [modifyFirst, hfirst, ih hfront]

end FirstMatch

end PsychOS
