/-
Going round a circle of `n` places and stopping only at the marked ones.  From
a place that is one of them, as many stops as there are marked places make one
lap, which stops at each of them once.
-/
import Mathlib.Data.Finset.Card
import Mathlib.Data.List.Chain
import Mathlib.Data.List.Nodup
import Mathlib.Data.Nat.ModEq

namespace PsychOS

/-- `j` is the first marked place after `i`. -/
def FirstAfter (n : Nat) (marked : Nat → Prop) (i j : Nat) : Prop :=
  ∃ d, 0 < d ∧ d < n ∧ j = (i + d) % n ∧ marked j ∧
    ∀ d', 0 < d' → d' < d → ¬ marked ((i + d') % n)

section Lap

variable {n : Nat} {marked : Nat → Prop} [DecidablePred marked]

/-- The marked places among the next `length` ones after `i`, not yet reduced
modulo `n`. -/
def ahead (n : Nat) (marked : Nat → Prop) [DecidablePred marked]
    (i length : Nat) : List Nat :=
  (List.range' (i + 1) length).filter fun x => marked (x % n)

theorem mem_ahead {i length x : Nat} :
    x ∈ ahead n marked i length ↔
      (i < x ∧ x ≤ i + length) ∧ marked (x % n) := by
  rw [ahead, List.mem_filter, List.mem_range'_1, decide_eq_true_iff]
  constructor
  · rintro ⟨⟨hlow, hhigh⟩, hmarked⟩
    exact ⟨⟨hlow, by omega⟩, hmarked⟩
  · rintro ⟨⟨hlow, hhigh⟩, hmarked⟩
    exact ⟨⟨hlow, by omega⟩, hmarked⟩

/-- Nothing is marked before the first marked place. -/
theorem ahead_unmarked {i length : Nat}
    (hnone : ∀ d, 0 < d → d ≤ length → ¬ marked ((i + d) % n)) :
    ahead n marked i length = [] := by
  refine List.eq_nil_iff_forall_not_mem.mpr ?_
  intro x hx
  obtain ⟨⟨hlow, hhigh⟩, hmarked⟩ := mem_ahead.mp hx
  obtain ⟨d, rfl⟩ := Nat.exists_eq_add_of_le (Nat.le_of_lt hlow)
  exact hnone d (by omega) (by omega) hmarked

theorem ahead_first {i d rest : Nat} (hd : 0 < d)
    (hmarked : marked ((i + d) % n))
    (hnone : ∀ d', 0 < d' → d' < d → ¬ marked ((i + d') % n)) :
    ahead n marked i (d + rest) = (i + d) :: ahead n marked (i + d) rest := by
  obtain ⟨e, rfl⟩ : ∃ e, d = e + 1 := ⟨d - 1, by omega⟩
  have hbefore : ahead n marked i e = [] :=
    ahead_unmarked fun d' hpos hle => hnone d' hpos (by omega)
  have hplace : i + 1 + e = i + (e + 1) := by omega
  rw [ahead] at hbefore
  rw [ahead, Nat.add_assoc e 1 rest, ← List.range'_append_1, hplace,
    List.filter_append, hbefore, List.nil_append, Nat.add_comm 1 rest,
    List.range'_succ, List.filter_cons_of_pos (by simpa using hmarked), ahead]

/-- The stops are the marked places ahead, in their order. -/
theorem stops_initial {i : Nat} {stops : List Nat}
    (hchain : (i % n :: stops).IsChain (FirstAfter n marked)) {length : Nat}
    (henough : stops.length ≤ (ahead n marked i length).length) :
    stops <+: (ahead n marked i length).map (· % n) := by
  induction stops generalizing i length with
  | nil => exact List.nil_prefix
  | cons stop stops ih =>
      obtain ⟨⟨d, hd, -, rfl, hmarked, hnone⟩, hrest⟩ :=
        List.isChain_cons_cons.mp hchain
      rw [Nat.mod_add_mod] at hmarked hrest
      simp only [Nat.mod_add_mod] at hnone
      rcases Nat.lt_or_ge length d with hshort | hlong
      · have hempty : ahead n marked i length = [] :=
          ahead_unmarked fun d' hpos hle => hnone d' hpos (by omega)
        rw [hempty] at henough
        exact absurd henough (Nat.not_succ_le_zero _)
      · obtain ⟨rest, rfl⟩ := Nat.exists_eq_add_of_le hlong
        rw [ahead_first hd hmarked hnone] at henough ⊢
        rw [List.map_cons, Nat.mod_add_mod]
        exact List.cons_prefix_cons.mpr
          ⟨rfl, ih hrest (Nat.le_of_succ_le_succ henough)⟩

/-- One lap. -/
def lap (n : Nat) (marked : Nat → Prop) [DecidablePred marked] (i : Nat) :
    List Nat :=
  (ahead n marked i n).map (· % n)

theorem lap_nodup (i : Nat) : (lap n marked i).Nodup := by
  refine List.Nodup.map_on ?_ (List.Nodup.filter _ List.nodup_range')
  intro x hx y hy hmod
  obtain ⟨⟨hxlow, hxhigh⟩, -⟩ := mem_ahead.mp hx
  obtain ⟨⟨hylow, hyhigh⟩, -⟩ := mem_ahead.mp hy
  obtain ⟨a, rfl⟩ := Nat.exists_eq_add_of_lt hxlow
  obtain ⟨b, rfl⟩ := Nat.exists_eq_add_of_lt hylow
  have hmod : i + 1 + a ≡ i + 1 + b [MOD n] := by
    rw [Nat.add_right_comm i 1 a, Nat.add_right_comm i 1 b]
    exact hmod
  have hab : a % n = b % n := Nat.ModEq.add_left_cancel' (i + 1) hmod
  rw [Nat.mod_eq_of_lt (by omega), Nat.mod_eq_of_lt (by omega)] at hab
  rw [hab]

theorem mem_lap {i x : Nat} (hi : i < n) :
    x ∈ lap n marked i ↔ x < n ∧ marked x := by
  rw [lap, List.mem_map]
  constructor
  · rintro ⟨y, hy, rfl⟩
    exact ⟨Nat.mod_lt y (by omega), (mem_ahead.mp hy).2⟩
  · rintro ⟨hx, hmarked⟩
    rcases Nat.lt_or_ge i x with hafter | hbefore
    · have hmod : x % n = x := Nat.mod_eq_of_lt hx
      exact ⟨x, mem_ahead.mpr ⟨⟨hafter, by omega⟩, hmod.symm ▸ hmarked⟩, hmod⟩
    · have hmod : (x + n) % n = x := by
        rw [Nat.add_mod_right, Nat.mod_eq_of_lt hx]
      exact ⟨x + n, mem_ahead.mpr
        ⟨⟨by omega, by omega⟩, hmod.symm ▸ hmarked⟩, hmod⟩

theorem lap_length {i : Nat} (hi : i < n) :
    (lap n marked i).length = ((Finset.range n).filter marked).card := by
  rw [← List.toFinset_card_of_nodup (lap_nodup i)]
  congr 1
  ext x
  rw [List.mem_toFinset, mem_lap hi, Finset.mem_filter, Finset.mem_range]

/-- As many stops as there are marked places stop at each of them once. -/
theorem stops_lap {i : Nat} (hi : i < n) {stops : List Nat}
    (hchain : (i :: stops).IsChain (FirstAfter n marked))
    (hlength : stops.length = ((Finset.range n).filter marked).card) :
    stops.Nodup ∧ ∀ x, x ∈ stops ↔ x < n ∧ marked x := by
  rw [← lap_length hi] at hlength
  have hinitial : stops <+: lap n marked i := by
    refine stops_initial ?_ ?_
    · rw [Nat.mod_eq_of_lt hi]
      exact hchain
    · rw [hlength, lap, List.length_map]
  rw [hinitial.eq_of_length hlength]
  exact ⟨lap_nodup i, fun x => mem_lap hi⟩

end Lap

end PsychOS
