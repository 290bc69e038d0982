/-
Numerals: numbers written down in a radix, most significant digit first.  The
characters are a parameter, given by a glyph for every digit and the value a
reader gives to a character.
-/
import Mathlib.Data.Nat.Digits.Lemmas

namespace PsychOS

universe u

variable {α : Type u} (glyph : Nat → α) (value : α → Nat)

/-- The numeral of `n`; zero has one digit. -/
def numeral (radix n : Nat) : List α :=
  if n = 0 then [glyph 0] else ((Nat.digits radix n).map glyph).reverse

/-- The number a reader makes of a numeral, digit by digit from the left. -/
def evaluate (radix : Nat) (text : List α) : Nat :=
  text.foldl (fun number ch => number * radix + value ch) 0

section Numerals

variable {glyph value} {radix n : Nat}

theorem mem_numeral (hradix : 1 < radix) {ch : α}
    (hmem : ch ∈ numeral glyph radix n) : ∃ d < radix, ch = glyph d := by
  rw [numeral] at hmem
  split at hmem
  · exact ⟨0, Nat.zero_lt_of_lt hradix, List.mem_singleton.mp hmem⟩
  · obtain ⟨d, hd, rfl⟩ := List.mem_map.mp (List.mem_reverse.mp hmem)
    exact ⟨d, Nat.digits_lt_base hradix hd, rfl⟩

theorem numeral_length_le (hradix : 1 < radix) {count : Nat}
    (hpos : 0 < count) (hn : n < radix ^ count) :
    (numeral glyph radix n).length ≤ count := by
  rw [numeral]
  split
  · exact hpos
  · rw [List.length_reverse, List.length_map]
    exact (Nat.digits_length_le_iff hradix n).mpr hn

/-- The first digit is not zero. -/
theorem numeral_head (hradix : 1 < radix) (hn : n ≠ 0) :
    ∃ d, 0 < d ∧ d < radix ∧ (numeral glyph radix n).head? = some (glyph d) := by
  have hdigits : Nat.digits radix n ≠ [] :=
    Nat.digits_ne_nil_iff_ne_zero.mpr hn
  refine ⟨(Nat.digits radix n).getLast hdigits, ?_, ?_, ?_⟩
  · exact Nat.pos_of_ne_zero (Nat.getLast_digit_ne_zero radix hn)
  · exact Nat.digits_lt_base hradix (List.getLast_mem hdigits)
  · rw [numeral, if_neg hn, List.head?_reverse, List.getLast?_map,
      List.getLast?_eq_some_getLast hdigits, Option.map_some]

/-- Reading digits from the left is evaluating them from the right. -/
theorem evaluate_reverse (text : List α) :
    evaluate value radix text.reverse =
      Nat.ofDigits radix (text.map value) := by
  rw [evaluate, List.foldl_reverse]
  induction text with
  | nil => rfl
  | cons ch rest ih =>
      rw [List.foldr_cons, ih, List.map_cons, Nat.ofDigits_cons,
        Nat.mul_comm, Nat.add_comm]

theorem evaluate_numeral (hradix : 1 < radix)
    (hvalue : ∀ d < radix, value (glyph d) = d) (n : Nat) :
    evaluate value radix (numeral glyph radix n) = n := by
  rw [numeral]
  split
  · next hzero =>
      rw [evaluate, List.foldl_cons, List.foldl_nil, Nat.zero_mul,
        Nat.zero_add, hvalue 0 (Nat.zero_lt_of_lt hradix), hzero]
  · have hdigits : ((Nat.digits radix n).map glyph).map value =
        Nat.digits radix n := by
      have hsame : ∀ d ∈ Nat.digits radix n, (value ∘ glyph) d = id d :=
        fun d hd => hvalue d (Nat.digits_lt_base hradix hd)
      rw [List.map_map, List.map_congr_left hsame, List.map_id]
    rw [evaluate_reverse, hdigits, Nat.ofDigits_digits]

/-- Zeros in front do not change a numeral's value. -/
theorem evaluate_zeros (hzero : value (glyph 0) = 0) (count : Nat)
    (text : List α) :
    evaluate value radix (List.replicate count (glyph 0) ++ text) =
      evaluate value radix text := by
  induction count with
  | zero => rfl
  | succ count ih =>
      rw [List.replicate_succ, List.cons_append, evaluate, List.foldl_cons,
        Nat.zero_mul, Nat.zero_add, hzero]
      exact ih

end Numerals

end PsychOS
