/-
Reading a list in chunks.  A reader asks for some number of elements at a time
and gets the next ones, fewer only at the end.  Whatever the sizes, the chunks
put together are a prefix of the list, and a chunk asked for is empty exactly
when everything has been delivered.
-/
import Mathlib.Data.List.Induction
import Mathlib.Tactic.Common

namespace PsychOS

universe u

variable {α : Type u}

/-- One read: how much was asked for and what was handed out. -/
structure Chunk (α : Type u) where
  asked : Nat
  got : List α

/-- Everything handed out so far. -/
def delivered (chunks : List (Chunk α)) : List α := chunks.flatMap Chunk.got

@[simp]
theorem delivered_nil : delivered ([] : List (Chunk α)) = [] := rfl

@[simp]
theorem delivered_append (first second : List (Chunk α)) :
    delivered (first ++ second) = delivered first ++ delivered second :=
  List.flatMap_append

@[simp]
theorem delivered_cons (chunk : Chunk α) (rest : List (Chunk α)) :
    delivered (chunk :: rest) = chunk.got ++ delivered rest := rfl

/-- Every chunk is the next piece of the content. -/
def Delivers (content : List α) (chunks : List (Chunk α)) : Prop :=
  ∀ before chunk after, chunks = before ++ chunk :: after →
    chunk.got = (content.drop (delivered before).length).take chunk.asked

variable {content : List α} {chunks : List (Chunk α)}

theorem delivers_nil : Delivers content ([] : List (Chunk α)) := by
  intro before chunk after hsplit
  simp at hsplit

theorem Delivers.concat (hchunks : Delivers content chunks) {chunk : Chunk α}
    (hnext : chunk.got =
      (content.drop (delivered chunks).length).take chunk.asked) :
    Delivers content (chunks ++ [chunk]) := by
  intro before other after hsplit
  rcases List.eq_nil_or_concat after with rfl | ⟨front, last, rfl⟩
  · obtain ⟨rfl, hlast⟩ := List.append_inj' hsplit rfl
    obtain rfl : chunk = other := List.singleton_inj.mp hlast
    exact hnext
  · rw [List.concat_eq_append, ← List.cons_append, ← List.append_assoc]
      at hsplit
    obtain ⟨hfront, -⟩ := List.append_inj' hsplit rfl
    exact hchunks before other front hfront

theorem Delivers.of_append {first second : List (Chunk α)}
    (hchunks : Delivers content (first ++ second)) :
    Delivers content first := by
  intro before chunk after hsplit
  apply hchunks before chunk (after ++ second)
  rw [hsplit, List.append_assoc, List.cons_append]

/-- The chunks put together are a prefix of the content. -/
theorem Delivers.eq_take (hchunks : Delivers content chunks) :
    delivered chunks = content.take (delivered chunks).length := by
  induction chunks using List.reverseRecOn with
  | nil => simp
  | append_singleton chunks chunk ih =>
      have hbefore := ih hchunks.of_append
      have hgot := hchunks chunks chunk [] rfl
      simp only [delivered_append, delivered_cons, delivered_nil,
        List.append_nil, List.length_append]
      rw [List.take_add, ← hbefore, hgot]
      simp

/-- A chunk that was asked for is empty exactly at the end. -/
theorem Delivers.got_eq_nil_iff {before after : List (Chunk α)}
    {chunk : Chunk α}
    (hchunks : Delivers content (before ++ chunk :: after))
    (hasked : 0 < chunk.asked) :
    chunk.got = [] ↔ delivered before = content := by
  have hgot := hchunks before chunk after rfl
  have htaken := hchunks.of_append.eq_take
  have hempty : chunk.got = [] ↔
      content.length ≤ (delivered before).length := by
    rw [hgot, List.take_eq_nil_iff, List.drop_eq_nil_iff]
    constructor
    · rintro (hzero | hle)
      · omega
      · exact hle
    · exact Or.inr
  rw [hempty]
  constructor
  · intro hle
    rw [htaken, List.take_of_length_le hle]
  · intro hall
    exact Nat.le_of_eq (congrArg List.length hall.symm)

/-- After the end nothing more is handed out. -/
theorem Delivers.got_after_end {before after : List (Chunk α)}
    {chunk later : Chunk α}
    (hchunks : Delivers content (before ++ chunk :: after))
    (hall : delivered before = content) (hlater : later ∈ after) :
    later.got = [] := by
  obtain ⟨front, back, rfl⟩ := List.append_of_mem hlater
  have hgot := hchunks (before ++ chunk :: front) later back (by simp)
  rw [hgot, List.drop_of_length_le, List.take_nil]
  simp only [delivered_append, List.length_append, hall]
  omega

end PsychOS
