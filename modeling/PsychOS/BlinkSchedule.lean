/-
What a blink shows, tick by tick.  From the call that adds it on, it shows its
two characters in turn, each for its own number of ticks, whatever calls about
other locations come between the ticks.
-/
import PsychOS.BlinkRefinement

namespace PsychOS

/-- How many ticks a length lasts.  The countdown is decremented before it is
compared, as a signed number, so that a length of zero lasts one tick, and so
does one above 0x8000. -/
def ticksOf (length : BitVec 16) : Nat :=
  if 1 ≤ length.toNat ∧ length.toNat ≤ 0x8000 then length.toNat else 1

theorem ticksOf_pos (length : BitVec 16) : 0 < ticksOf length := by
  rw [ticksOf]
  split
  · omega
  · exact Nat.one_pos

namespace BlinkData

def period (b : BlinkData) : Nat := ticksOf b.onLength + ticksOf b.offLength

def length (b : BlinkData) (on : Bool) : BitVec 16 :=
  if on then b.onLength else b.offLength

def char (b : BlinkData) (on : Bool) : UInt8 :=
  if on then b.onChar else b.offChar

/-- One of its characters has been shown for `k` ticks. -/
def phase (b : BlinkData) (on : Bool) (k : Nat) : BlinkData :=
  { b with
    status := if on then 1 else 0
    countdown := b.length on - BitVec.ofNat 16 k }

/-- The blink `n` ticks after it was added. -/
def after (b : BlinkData) (n : Nat) : BlinkData :=
  if n % b.period < ticksOf b.onLength then b.phase true (n % b.period)
  else b.phase false (n % b.period - ticksOf b.onLength)

/-- The character it shows then. -/
def charAfter (b : BlinkData) (n : Nat) : UInt8 :=
  if n % b.period < ticksOf b.onLength then b.onChar else b.offChar

end BlinkData

section Countdown

/-- A blink that has counted `k` of the ticks of a length changes with the
last of them. -/
theorem expires_iff {b : BlinkData} {length : BitVec 16} {k : Nat}
    (hk : k < ticksOf length)
    (hcountdown : b.countdown = length - BitVec.ofNat 16 k) :
    b.expires = true ↔ k + 1 = ticksOf length := by
  have hlength := length.isLt
  have hvalue : (b.countdown - 1).toNat =
      (length.toNat + (65536 - k % 65536) + 65535) % 65536 := by
    have hone : (1 : BitVec 16).toNat = 1 := rfl
    rw [hcountdown]
    simp only [BitVec.toNat_sub, BitVec.toNat_ofNat, hone, Nat.reducePow]
    omega
  rw [BlinkData.expires, decide_eq_true_iff, BitVec.toInt_eq_toNat_cond,
    hvalue]
  rw [ticksOf] at hk ⊢
  split at hk <;> split <;> omega

variable (b : BlinkData)

theorem length_true : b.length true = b.onLength := rfl

theorem length_false : b.length false = b.offLength := rfl

theorem after_zero : b.after 0 = b.fresh := by
  rw [BlinkData.after, Nat.zero_mod, if_pos (ticksOf_pos _)]
  simp [BlinkData.phase, BlinkData.fresh, BlinkData.length]

theorem isOn_phase (on : Bool) (k : Nat) : (b.phase on k).isOn = on := by
  cases on with
  | true => simp [BlinkData.isOn, BlinkData.phase]
  | false => simp [BlinkData.isOn, BlinkData.phase]

theorem toggle_phase (on : Bool) (k : Nat) :
    (b.phase on k).toggle = b.phase (!on) 0 := by
  rw [BlinkData.toggle, isOn_phase]
  cases on with
  | true => simp [BlinkData.phase, BlinkData.length]
  | false => simp [BlinkData.phase, BlinkData.length]

/-- One tick: the last of a phase shows the other character. -/
theorem tick_phase {on : Bool} {k : Nat} (hk : k < ticksOf (b.length on))
    (vmem : Memory UInt8) :
    (k + 1 = ticksOf (b.length on) ∧
      (b.phase on k).tick = b.phase (!on) 0 ∧
      (b.phase on k).tickShown vmem = vmem.store b.cell (b.char !on)) ∨
    (k + 1 ≠ ticksOf (b.length on) ∧
      (b.phase on k).tick = b.phase on (k + 1) ∧
      (b.phase on k).tickShown vmem = vmem) := by
  have hexpires := @expires_iff (b.phase on k) (b.length on) k hk rfl
  rw [BlinkData.tick, BlinkData.tickShown]
  by_cases hlast : k + 1 = ticksOf (b.length on)
  · rw [if_pos (hexpires.mpr hlast), if_pos (hexpires.mpr hlast),
      isOn_phase]
    refine Or.inl ⟨hlast, toggle_phase b on k, ?_⟩
    cases on with
    | true => rfl
    | false => rfl
  · rw [if_neg (mt hexpires.mp hlast), if_neg (mt hexpires.mp hlast)]
    refine Or.inr ⟨hlast, ?_, rfl⟩
    simp only [BlinkData.phase, BitVec.sub_sub, BitVec.ofNat_add]
    rfl

theorem mod_period_succ (n : Nat) :
    (n + 1) % b.period =
      if n % b.period + 1 = b.period then 0 else n % b.period + 1 := by
  have hpos : 0 < b.period := Nat.add_pos_left (ticksOf_pos _) _
  have hlt := Nat.mod_lt n hpos
  rw [← Nat.mod_add_mod]
  split
  · next hlast => rw [hlast, Nat.mod_self]
  · next hmore => exact Nat.mod_eq_of_lt (by omega)

/-- A tick moves the blink on in its period, and its cell with it. -/
theorem tick_after (n : Nat) (vmem : Memory UInt8)
    (hshown : vmem b.cell = b.charAfter n) :
    (b.after n).tick = b.after (n + 1) ∧
      (b.after n).tickShown vmem b.cell = b.charAfter (n + 1) := by
  have hon := ticksOf_pos b.onLength
  have hoff := ticksOf_pos b.offLength
  have hperiod : b.period = ticksOf b.onLength + ticksOf b.offLength := rfl
  have hlt : n % b.period < b.period := Nat.mod_lt n (by omega)
  rw [BlinkData.charAfter] at hshown
  rw [BlinkData.after, BlinkData.after, BlinkData.charAfter, mod_period_succ]
  by_cases hphase : n % b.period < ticksOf b.onLength
  · rw [if_pos hphase] at hshown ⊢
    have hmore : n % b.period + 1 ≠ b.period := by omega
    rw [if_neg hmore]
    rcases @tick_phase b true _ hphase vmem with
      ⟨hlast, htick, hvmem⟩ | ⟨hlast, htick, hvmem⟩
    · rw [length_true] at hlast
      have hend : ¬ n % b.period + 1 < ticksOf b.onLength := by omega
      rw [htick, hvmem, if_neg hend, if_neg hend, hlast, Nat.sub_self,
        Memory.store_same]
      exact ⟨rfl, rfl⟩
    · rw [length_true] at hlast
      have hnext : n % b.period + 1 < ticksOf b.onLength := by omega
      rw [htick, hvmem, if_pos hnext, if_pos hnext]
      exact ⟨rfl, hshown⟩
  · rw [if_neg hphase] at hshown ⊢
    have hk : n % b.period - ticksOf b.onLength < ticksOf b.offLength := by
      omega
    rcases @tick_phase b false _ hk vmem with
      ⟨hlast, htick, hvmem⟩ | ⟨hlast, htick, hvmem⟩
    · rw [length_false] at hlast
      have hend : n % b.period + 1 = b.period := by omega
      rw [htick, hvmem, if_pos hend, if_pos hon, if_pos hon,
        Memory.store_same]
      exact ⟨rfl, rfl⟩
    · rw [length_false] at hlast
      have hend : n % b.period + 1 ≠ b.period := by omega
      have hnext : ¬ n % b.period + 1 < ticksOf b.onLength := by omega
      have hk' : n % b.period + 1 - ticksOf b.onLength =
          n % b.period - ticksOf b.onLength + 1 := by
        omega
      rw [htick, hvmem, if_neg hend, if_neg hnext, if_neg hnext, hk']
      exact ⟨rfl, hshown⟩

end Countdown

section Calls

/-- Calls that change what is at a location. -/
def BlinkCall.Touches (location : BitVec 16) : BlinkCall → Bool
  | .add arg => arg.location == location
  | .remove arg | .sync arg => arg.setWidth 16 == location
  | .find _ | .tasklet => false

def BlinkCall.ticks : BlinkCall → Nat
  | .tasklet => 1
  | .add _ | .remove _ | .find _ | .sync _ => 0

def ticksIn : List BlinkCall → Nat
  | [] => 0
  | call :: calls => call.ticks + ticksIn calls

/-- The blink was added `n` ticks ago, and nothing else is at its location. -/
structure Scheduled (b : BlinkData) (n : Nat) (display : Display) : Prop where
  only : display.blinks.filter (BlinkData.isAt b.location) = [b.after n]
  shown : display.vmem b.cell = b.charAfter n

variable {b : BlinkData} {n : Nat} {display : Display}

theorem cell_ne {other : BlinkData} (hne : other.location ≠ b.location) :
    b.cell ≠ other.cell := by
  intro hsame
  apply hne
  apply BitVec.toNat_inj.mp
  rw [BlinkData.cell, BlinkData.cell] at hsame
  omega

/-- Only the blinks at a location touch its cell. -/
theorem foldl_tickShown (blinks : List BlinkData) {vmem vmem' : Memory UInt8}
    (hsame : vmem b.cell = vmem' b.cell) :
    blinks.foldl BlinkData.tickShown vmem b.cell =
      (blinks.filter (BlinkData.isAt b.location)).foldl
        BlinkData.tickShown vmem' b.cell := by
  induction blinks generalizing vmem vmem' with
  | nil => exact hsame
  | cons other rest ih =>
      by_cases hat : other.location = b.location
      · rw [List.filter_cons_of_pos (by simpa [BlinkData.isAt] using hat)]
        apply ih
        simp only [BlinkData.tickShown]
        split
        · simp only [Memory.store, hsame]
        · exact hsame
      · rw [List.filter_cons_of_neg (by simpa [BlinkData.isAt] using hat)]
        apply ih
        rw [BlinkData.tickShown]
        split
        · rw [Memory.store_of_ne _ _ (cell_ne hat), hsame]
        · exact hsame

theorem isAt_tick (location : BitVec 16) (other : BlinkData) :
    other.tick.isAt location = other.isAt location := by
  rw [BlinkData.tick]
  split <;> rfl

theorem filter_modifyFirst {p q : BlinkData → Bool}
    {f : BlinkData → BlinkData} (hf : ∀ other, q (f other) = q other)
    (hdisjoint : ∀ other, p other → ¬ q other) (blinks : List BlinkData) :
    (modifyFirst p f blinks).filter q = blinks.filter q := by
  induction blinks with
  | nil => rfl
  | cons other rest ih =>
      rw [modifyFirst]
      split
      · next hp =>
          rw [List.filter_cons_of_neg (by rw [hf]; exact hdisjoint other hp),
            List.filter_cons_of_neg (hdisjoint other hp)]
      · rw [List.filter_cons, List.filter_cons, ih]

theorem filter_eraseP {p q : BlinkData → Bool}
    (hdisjoint : ∀ other, p other → ¬ q other) (blinks : List BlinkData) :
    (blinks.eraseP p).filter q = blinks.filter q := by
  induction blinks with
  | nil => rfl
  | cons other rest ih =>
      by_cases hp : p other
      · rw [List.eraseP_cons_of_pos hp,
          List.filter_cons_of_neg (hdisjoint other hp)]
      · rw [List.eraseP_cons_of_neg hp, List.filter_cons, List.filter_cons, ih]

theorem not_isAt_of_isAt {location : BitVec 16}
    (hne : location ≠ b.location) (other : BlinkData)
    (hat : other.isAt location) : ¬ other.isAt b.location := by
  intro hsame
  exact hne ((beq_iff_eq.mp hat).symm.trans (beq_iff_eq.mp hsame))

theorem add_scheduled (hscheduled : Scheduled b n display)
    {other : BlinkData} (hne : other.location ≠ b.location) :
    Scheduled b n (display.add other).1 := by
  rw [Display.add]
  split
  · exact hscheduled
  · constructor
    · have hout : ¬ other.fresh.isAt b.location := by
        simpa [BlinkData.isAt, BlinkData.fresh] using hne
      rw [List.filter_cons_of_neg hout]
      exact hscheduled.only
    · exact (Memory.store_of_ne _ _ (cell_ne hne)).trans hscheduled.shown

theorem remove_scheduled (hscheduled : Scheduled b n display)
    {location : BitVec 16} (hne : location ≠ b.location) :
    Scheduled b n (display.remove location).1 := by
  rw [Display.remove]
  split
  · exact hscheduled
  · refine ⟨?_, hscheduled.shown⟩
    rw [filter_eraseP (not_isAt_of_isAt hne)]
    exact hscheduled.only

theorem sync_scheduled (hscheduled : Scheduled b n display)
    (source : BitVec 16) {target : BitVec 16} (hne : target ≠ b.location) :
    Scheduled b n (display.sync source target).1 := by
  rw [Display.sync]
  split
  · next leader other _ hother =>
      have hat : other.isAt target := List.find?_some hother
      have hlocation : other.location = target := beq_iff_eq.mp hat
      constructor
      · exact (@filter_modifyFirst _ _ leader.follow (fun _ => rfl)
          (not_isAt_of_isAt hne) _).trans hscheduled.only
      · exact (Memory.store_of_ne _ _
          (cell_ne (hlocation.trans_ne hne))).trans hscheduled.shown
  · exact hscheduled

theorem tick_scheduled (hscheduled : Scheduled b n display) :
    Scheduled b (n + 1) display.tick := by
  obtain ⟨htick, hshown⟩ := tick_after b n display.vmem hscheduled.shown
  constructor
  · have hfilter : BlinkData.isAt b.location ∘ BlinkData.tick =
        BlinkData.isAt b.location := by
      funext other
      exact isAt_tick _ _
    rw [Display.tick, List.filter_map, hfilter, hscheduled.only,
      List.map_singleton, htick]
  · have hcell := @foldl_tickShown b display.blinks display.vmem _ rfl
    rw [hscheduled.only] at hcell
    exact hcell.trans hshown

/-- Calls about other locations leave the blink on its schedule. -/
theorem call_scheduled (hscheduled : Scheduled b n display)
    {call : BlinkCall} (huntouched : ¬ call.Touches b.location) :
    Scheduled b (n + call.ticks) (display.call call).1 := by
  cases call with
  | add arg =>
      exact add_scheduled hscheduled
        (by simpa [BlinkCall.Touches] using huntouched)
  | remove arg =>
      exact remove_scheduled hscheduled
        (by simpa [BlinkCall.Touches] using huntouched)
  | find arg =>
      rw [Display.call]
      split
      · exact hscheduled
      · exact hscheduled
  | sync arg =>
      exact sync_scheduled hscheduled _
        (by simpa [BlinkCall.Touches] using huntouched)
  | tasklet => exact tick_scheduled hscheduled

theorem answers_scheduled {display' : Display} {calls : List BlinkCall}
    {replies : List BlinkReply} (hscheduled : Scheduled b n display)
    (huntouched : ∀ call ∈ calls, ¬ call.Touches b.location)
    (hrun : answers Display.step display calls = some (display', replies)) :
    Scheduled b (n + ticksIn calls) display' := by
  induction calls generalizing display n replies with
  | nil =>
      obtain ⟨rfl, -⟩ := Prod.mk.inj (Option.some.inj hrun)
      exact hscheduled
  | cons call rest ih =>
      obtain ⟨hcall, hrest⟩ := List.forall_mem_cons.mp huntouched
      obtain ⟨next, reply, later, hstep, hlater, -⟩ :=
        answers_cons_eq_some.mp hrun
      obtain ⟨rfl, -⟩ := Prod.mk.inj (Option.some.inj hstep)
      have hnext := ih (call_scheduled hscheduled hcall) hrest hlater
      rwa [Nat.add_assoc] at hnext

/-- A search that ends without success says that nothing is there. -/
theorem absent_of_find {st : BlinkState} {slots : List Nat} {fuel : Nat}
    {location : BitVec 16} (hkeeps : KeepsBlinks st slots display)
    (hfuel : blinkArraySize < fuel)
    (hfind : mp1FindHelper fuel st (location.setWidth 32) = some none) :
    ∀ other ∈ display.blinks, other.location ≠ location := by
  have hwidth : (location.setWidth 32).setWidth 16 = location :=
    BitVec.setWidth_setWidth_of_le location (by decide)
  rw [mp1FindHelper_eq hkeeps hfuel, hwidth] at hfind
  have hnone : display.at? location = none := by
    rw [at?_eq hkeeps, Option.some.inj hfind]
    rfl
  intro other hother hsame
  exact List.find?_eq_none.mp hnone other hother (beq_iff_eq.mpr hsame)

/-- The blink just added is on its schedule. -/
theorem scheduled_of_add
    (habsent : ∀ other ∈ display.blinks, other.location ≠ b.location)
    (hadded : (display.add b).2 = 0) : Scheduled b 0 (display.add b).1 := by
  rw [Display.add] at hadded ⊢
  split at hadded
  · exact absurd hadded (show (-1 : Int) ≠ 0 by decide)
  · next hroom =>
      rw [if_neg hroom]
      constructor
      · have hat : b.fresh.isAt b.location := beq_self_eq_true b.location
        have hnone : display.blinks.filter (BlinkData.isAt b.location) = [] :=
          List.filter_eq_nil_iff.mpr fun other hother hsame =>
            habsent other hother (beq_iff_eq.mp hsame)
        rw [List.filter_cons_of_pos hat, hnone, after_zero]
      · have hshown : b.charAfter 0 = b.onChar := by
          rw [BlinkData.charAfter, Nat.zero_mod, if_pos (ticksOf_pos _)]
        rw [hshown]
        exact Memory.store_same ..

/-- From the call that adds a blink on, at a location where a search finds none,
whatever other calls come between the ticks, its cell shows its two characters
in turn. -/
theorem blink_follows_schedule {fuel : Nat} (vmem : Memory UInt8)
    (hfuel : blinkArraySize < fuel) {before after : List BlinkCall}
    {b : Blink} (hlegal : ∀ call ∈ before ++ .add b :: after, call.Legal)
    (hfree : (answers (blinkStep fuel) (BlinkState.start vmem) before).bind
      (fun (st, _) => mp1FindHelper fuel st (b.location.setWidth 32)) =
        some none)
    (hafter : ∀ call ∈ after, ¬ call.Touches b.location) :
    ∃ st replies,
      answers (blinkStep fuel) (BlinkState.start vmem)
        (before ++ .add b :: after) = some (st, replies) ∧
      (replies[before.length]? = some ⟨0, none⟩ →
        st.vmem b.cell = b.charAfter (ticksIn after)) := by
  obtain ⟨st, display, replies, slots, hrun, hspec, hkeeps⟩ :=
    answers_keeps vmem hfuel hlegal
  refine ⟨st, replies, hrun, ?_⟩
  intro hreply
  obtain ⟨middle, earlier, rest, hearlier, hrest, rfl⟩ :=
    answers_append_eq_some.mp hspec
  obtain ⟨next, reply, later, hadd, hlater, rfl⟩ :=
    answers_cons_eq_some.mp hrest
  obtain ⟨rfl, rfl⟩ := Prod.mk.inj (Option.some.inj hadd)
  have hadded : (middle.add b.toBlinkData).2 = 0 := by
    rw [← answers_length hearlier, List.getElem?_append_right (Nat.le_refl _),
      Nat.sub_self, List.getElem?_cons_zero] at hreply
    exact congrArg BlinkReply.result (Option.some.inj hreply)
  -- The list at the time of the call is the one the earlier calls made.
  have habsent : ∀ other ∈ middle.blinks, other.location ≠ b.location := by
    obtain ⟨st₀, display₀, replies₀, slots₀, hrun₀, hspec₀, hkeeps₀⟩ :=
      answers_keeps vmem hfuel fun call hcall =>
        hlegal call (List.mem_append_left _ hcall)
    obtain ⟨rfl, -⟩ :=
      Prod.mk.inj (Option.some.inj (hspec₀.symm.trans hearlier))
    rw [hrun₀] at hfree
    exact absent_of_find hkeeps₀ hfuel hfree
  have hscheduled := answers_scheduled (scheduled_of_add habsent hadded)
    hafter hlater
  rw [← hkeeps.vmem_eq, hscheduled.shown, Nat.zero_add]

/-- A blink at a location that had one before. -/
theorem blink_follows_schedule_sample :
    ∃ st replies,
      answers (blinkStep 2001) (BlinkState.start fun _ => 0)
        ([.add (sampleBlink 540), .add (sampleBlink 40), .remove 540] ++
          .add (sampleBlink 540) ::
            [.tasklet, .sync 0x021C0028, .remove 40, .tasklet]) =
        some (st, replies) ∧
      (replies[3]? = some ⟨0, none⟩ →
        st.vmem (sampleBlink 540).cell =
          (sampleBlink 540).charAfter (ticksIn
            [.tasklet, .sync 0x021C0028, .remove 40, .tasklet])) :=
  blink_follows_schedule (fun _ => 0) (by decide) (by decide)
    (by decide +kernel) (by decide)

end Calls

end PsychOS
