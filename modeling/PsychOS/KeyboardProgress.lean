/-
Progress of the keyboard.  A reader waits for Enter, so Enter must get through
whenever a reader waits.  It does, except after a read of no bytes has counted
down the last line of a full buffer: then the newline that fills the buffer is
neither announced nor removable.
-/
import PsychOS.Lib.Run
import PsychOS.LineDiscipline
import PsychOS.NewlineCounter

namespace PsychOS

/-- Keys and completed reads on one terminal. -/
def typingStep (terminal : Nat) : StepFn Tty LineEvent
  | tty, .key ch => some (keyboardPutc tty terminal ch).1
  | tty, .read nbytes => (terminalRead tty terminal nbytes).map Prod.snd

/-- If a reader would block, Enter is accepted and lets it go on. -/
def EnterAccepted (terminal : Nat) (tty : Tty) : Prop :=
  tty.newLineReady terminal = 0 →
    (keyboardPutc tty terminal charNewline).2 = 1 ∧
      (keyboardPutc tty terminal charNewline).1.newLineReady terminal ≠ 0

/-- A reader blocks and every key is refused. -/
def Wedged (terminal : Nat) (tty : Tty) : Prop :=
  tty.newLineReady terminal = 0 ∧
    ∀ ch ≠ 0, (keyboardPutc tty terminal ch).2 = 0

/-- The steps after which a blocked reader can still be woken: not a read of no
bytes that counts down the only line announced while the buffer is full. -/
def KeepsRoom (terminal : Nat) (tty : Tty) : LineEvent → Prop
  | .key _ => True
  | .read nbytes =>
      ¬ (toUint32 nbytes = 0 ∧ tty.newLineReady terminal = 1 ∧
        circularBufferLen (tty.inputBuffer terminal) = keyboardBufferSize)

instance (terminal : Nat) (tty : Tty) :
    DecidablePred (KeepsRoom terminal tty)
  | .key _ => isTrue trivial
  | .read nbytes => inferInstanceAs (Decidable
      (¬ (toUint32 nbytes = 0 ∧ tty.newLineReady terminal = 1 ∧
        circularBufferLen (tty.inputBuffer terminal) = keyboardBufferSize)))

/-- What keys and reads keep: every line announced is in the buffer, and only a
newline fills its last byte. -/
structure Typing (layout : Layout) (terminal : Nat) (tty : Tty) : Prop where
  ready : tty.InputReady layout terminal
  announced : tty.newLineReady terminal ≤
    (tty.pending terminal).count charNewline
  filled : (tty.pending terminal).length = keyboardBufferSize →
    (tty.pending terminal).getLast? = some charNewline

section Steps

variable {layout : Layout} {terminal : Nat} {tty next : Tty}

theorem Typing.counter_le (htyping : Typing layout terminal tty) :
    tty.newLineReady terminal ≤ keyboardBufferSize :=
  htyping.announced.trans
    (List.count_le_length.trans htyping.ready.pending_length_le)

theorem Typing.pending_length (htyping : Typing layout terminal tty) :
    (tty.pending terminal).length < keyboardBufferSize ∨
      (tty.pending terminal).length = keyboardBufferSize :=
  Nat.lt_or_eq_of_le htyping.ready.pending_length_le

/-- Enter gets through to a blocked reader exactly if there is room. -/
theorem Typing.enterAccepted_iff (htyping : Typing layout terminal tty) :
    EnterAccepted terminal tty ↔ (tty.newLineReady terminal = 0 →
      (tty.pending terminal).length < keyboardBufferSize) := by
  have hspec := keyboardPutc_spec htyping.ready charNewline
  apply forall_congr'
  intro hzero
  constructor
  · rintro ⟨hret, -⟩
    rw [hspec.ret_eq] at hret
    by_contra hfull
    have hnone : keyEffect (tty.pending terminal) charNewline = none := by
      have hne : charNewline ≠ charBackspace := by decide
      simp only [keyEffect, hne, Nat.le_of_not_lt hfull, ↓reduceIte]
    simp [hnone] at hret
  · intro hroom
    have heffect := keyEffect_newline hroom
    rw [hspec.ret_eq, hspec.newLineReady_eq, hzero]
    simp [heffect]

/-- The two ways of being stuck are the same. -/
theorem Typing.enterAccepted_iff_not_wedged
    (htyping : Typing layout terminal tty) :
    EnterAccepted terminal tty ↔ ¬ Wedged terminal tty := by
  constructor
  · rintro haccepted ⟨hzero, hrefused⟩
    have hret := (haccepted hzero).1
    rw [hrefused charNewline (by decide)] at hret
    exact absurd hret (by decide)
  · intro hnot
    rw [htyping.enterAccepted_iff]
    intro hzero
    rcases htyping.pending_length with hroom | hfull
    · exact hroom
    · refine absurd ⟨hzero, ?_⟩ hnot
      intro ch hch
      have hspec := keyboardPutc_spec htyping.ready ch
      rw [hspec.ret_eq, if_neg]
      intro hsome
      rcases keyEffect_accepted hch hsome with
        ⟨rfl, last, hlast, hnl⟩ | ⟨rfl, hroom⟩ | ⟨-, -, hroom⟩
      · rw [htyping.filled hfull] at hlast
        exact hnl (Option.some.inj hlast).symm
      · omega
      · omega

theorem Typing.key (htyping : Typing layout terminal tty) (ch : UInt8) :
    Typing layout terminal (keyboardPutc tty terminal ch).1 := by
  have hready := (keyboardPutc_spec htyping.ready ch).ready
  have hbound := htyping.ready.pending_length_le
  have hannounced := htyping.announced
  rcases keyboardPutc_cases htyping.ready rfl with ⟨hpending, hcounter⟩ |
    ⟨last, hlast, hnl, hpending, hcounter⟩ | ⟨hroom, hpending, hcounter⟩ |
    ⟨hnl, hroom, hpending, hcounter⟩
  · exact ⟨hready, by rw [hpending, hcounter]; exact hannounced,
      by rw [hpending]; exact htyping.filled⟩
  · refine ⟨hready, ?_, ?_⟩
    · rw [hpending, hcounter, count_dropLast_of_ne hlast hnl]
      exact hannounced
    · rw [hpending, List.length_dropLast]
      simp only [keyboardBufferSize] at hbound ⊢
      omega
  · refine ⟨hready, ?_, ?_⟩
    · rw [hpending, hcounter, List.count_append, List.count_singleton_self]
      omega
    · rw [hpending, List.getLast?_concat]
      exact fun _ => rfl
  · refine ⟨hready, ?_, ?_⟩
    · rw [hpending, hcounter, List.count_append]
      exact hannounced.trans (Nat.le_add_right _ _)
    · rw [hpending, List.length_append, List.length_singleton]
      simp only [keyboardBufferSize] at hroom ⊢
      omega

/-- A completed read finds a line, since one is announced. -/
theorem Typing.line_found (htyping : Typing layout terminal tty)
    (hcounter : tty.newLineReady terminal ≠ 0) :
    0 < lineLength (tty.pending terminal) := by
  have hannounced := htyping.announced
  have hmem : charNewline ∈ tty.pending terminal :=
    List.count_pos_iff.mp (by omega)
  obtain ⟨line, rest, hsplit, hline⟩ := List.eq_append_cons_of_mem hmem
  rw [hsplit, lineLength_append_newline hline]
  exact Nat.succ_pos _

/-- Taking bytes of the first line takes at most one newline. -/
theorem count_drop_of_le_line {pending : List UInt8} {count : Nat}
    (hcount : count ≤ lineLength pending) :
    pending.count charNewline ≤
      (pending.drop count).count charNewline + 1 := by
  have hsum : (pending.take count).count charNewline +
      (pending.drop count).count charNewline =
      pending.count charNewline := by
    rw [← List.count_append, List.take_append_drop]
  by_cases hmem : charNewline ∈ pending
  · obtain ⟨line, rest, hsplit, hline⟩ := List.eq_append_cons_of_mem hmem
    rw [hsplit, lineLength_append_newline hline] at hcount
    have htaken : (pending.take count).count charNewline ≤
        (line ++ [charNewline]).count charNewline := by
      apply List.Sublist.count_le
      have hfront : line ++ [charNewline] = pending.take (line.length + 1) := by
        have hjoin : pending = (line ++ [charNewline]) ++ rest := by
          rw [hsplit, List.append_assoc]
          rfl
        rw [hjoin, List.take_left' (by simp)]
      rw [hfront]
      exact (List.take_prefix_take_left (by omega)).sublist
    rw [List.count_append, List.count_eq_zero_of_not_mem hline,
      List.count_singleton_self] at htaken
    omega
  · rw [List.count_eq_zero_of_not_mem hmem]
    exact Nat.zero_le _

theorem Typing.read (htyping : Typing layout terminal tty) {nbytes : Int}
    {bytes : List UInt8}
    (hread : terminalRead tty terminal nbytes = some (bytes, next)) :
    Typing layout terminal next := by
  obtain ⟨hne, hready, -, hpending, hcounter⟩ :=
    terminalRead_spec htyping.ready hread
  have hannounced := htyping.announced
  have hsmall := htyping.counter_le
  have hbound := htyping.ready.pending_length_le
  have hkept := count_drop_of_le_line (Nat.min_le_left
    (lineLength (tty.pending terminal)) (toUint32 nbytes))
  simp only [keyboardBufferSize] at hsmall
  refine ⟨hready, ?_, ?_⟩
  · rw [hpending, hcounter]
    omega
  · rw [hpending, List.length_drop]
    intro hfull
    have hnone : min (lineLength (tty.pending terminal)) (toUint32 nbytes) =
        0 := by
      simp only [keyboardBufferSize] at hbound hfull
      omega
    rw [hnone, List.drop_zero]
    exact htyping.filled (by omega)

theorem typingStep_typing (event : LineEvent)
    (htyping : Typing layout terminal tty)
    (hstep : typingStep terminal tty event = some next) :
    Typing layout terminal next := by
  cases event with
  | key ch =>
      obtain rfl := Option.some.inj hstep
      exact htyping.key ch
  | read nbytes =>
      obtain ⟨⟨bytes, after⟩, hread, rfl⟩ := Option.map_eq_some_iff.mp hstep
      exact htyping.read hread

/-- A key never takes away the room for Enter. -/
theorem Typing.key_accepted (htyping : Typing layout terminal tty)
    (haccepted : EnterAccepted terminal tty) (ch : UInt8) :
    EnterAccepted terminal (keyboardPutc tty terminal ch).1 := by
  have hbound := htyping.ready.pending_length_le
  have hsmall := htyping.counter_le
  rw [htyping.enterAccepted_iff] at haccepted
  rw [(htyping.key ch).enterAccepted_iff]
  simp only [keyboardBufferSize] at *
  rcases keyboardPutc_cases htyping.ready rfl with ⟨hpending, hcounter⟩ |
    ⟨last, hlast, -, hpending, hcounter⟩ | ⟨-, -, hcounter⟩ |
    ⟨-, hroom, hpending, -⟩
  · rw [hpending, hcounter]
    exact haccepted
  · intro _
    rw [hpending, List.length_dropLast]
    omega
  · intro hzero
    omega
  · intro _
    rw [hpending, List.length_append, List.length_singleton]
    simp only [keyboardBufferSize] at hroom
    omega

/-- A read takes it away exactly if it takes nothing out of a full buffer and
counts down to zero. -/
theorem Typing.read_accepted_iff (htyping : Typing layout terminal tty)
    {nbytes : Int} {bytes : List UInt8}
    (hread : terminalRead tty terminal nbytes = some (bytes, next)) :
    EnterAccepted terminal next ↔ KeepsRoom terminal tty (.read nbytes) := by
  obtain ⟨hne, -, -, hpending, hcounter⟩ :=
    terminalRead_spec htyping.ready hread
  have hline := htyping.line_found hne
  have hsmall := htyping.counter_le
  have hbound := htyping.ready.pending_length_le
  rw [(htyping.read hread).enterAccepted_iff, hpending, hcounter,
    List.length_drop, KeepsRoom, circularBufferLen, ← tty.pending_length]
  simp only [keyboardBufferSize] at *
  omega

theorem typingStep_accepted_iff (event : LineEvent)
    (htyping : Typing layout terminal tty)
    (haccepted : EnterAccepted terminal tty)
    (hstep : typingStep terminal tty event = some next) :
    EnterAccepted terminal next ↔ KeepsRoom terminal tty event := by
  cases event with
  | key ch =>
      obtain rfl := Option.some.inj hstep
      exact iff_of_true (htyping.key_accepted haccepted ch) trivial
  | read nbytes =>
      obtain ⟨⟨bytes, after⟩, hread, rfl⟩ := Option.map_eq_some_iff.mp hstep
      exact htyping.read_accepted_iff hread

end Steps

section Runs

variable {layout : Layout} {terminal : Nat} {start tty : Tty}
  {events : List LineEvent}

theorem resetTerminal_typing (layout : Layout) (tty : Tty) (terminal : Nat) :
    Typing layout terminal (resetTerminal layout tty terminal) := by
  refine ⟨resetTerminal_ready layout tty terminal, ?_, ?_⟩
  · rw [resetTerminal_newLineReady]
    exact Nat.zero_le _
  · rw [resetTerminal_pending]
    intro hfull
    cases hfull

theorem run_typing (hstart : Typing layout terminal start)
    (hrun : (typingStep terminal).run start events = some tty) :
    Typing layout terminal tty :=
  StepFn.run_invariant
    (fun _ event _ htyping hstep => typingStep_typing event htyping hstep)
    hstart hrun

/-- In every run from a reset terminal, Enter is accepted in all states in
which a reader would block if and only if no read of no bytes counts down the
only line announced while the buffer is full; and Enter is accepted in all of
them if and only if none of them is wedged. -/
theorem enter_accepted_throughout_iff (layout : Layout) (tty : Tty)
    (terminal : Nat) (events : List LineEvent) (final : Tty)
    (hrun : (typingStep terminal).run (resetTerminal layout tty terminal)
      events = some final) :
    ((typingStep terminal).Throughout (EnterAccepted terminal)
        (resetTerminal layout tty terminal) events ↔
      (typingStep terminal).Along (KeepsRoom terminal)
        (resetTerminal layout tty terminal) events) ∧
      ((typingStep terminal).Throughout (EnterAccepted terminal)
          (resetTerminal layout tty terminal) events ↔
        (typingStep terminal).Throughout (fun state => ¬ Wedged terminal state)
          (resetTerminal layout tty terminal) events) := by
  have hstart := resetTerminal_typing layout tty terminal
  constructor
  · refine StepFn.throughout_iff_along
      (fun _ event _ htyping hstep => typingStep_typing event htyping hstep)
      (fun _ event _ htyping haccepted hstep =>
        typingStep_accepted_iff event htyping haccepted hstep)
      hstart ?_ hrun
    rw [hstart.enterAccepted_iff, resetTerminal_pending]
    exact fun _ => by decide
  · refine forall₂_congr fun front middle => forall₂_congr fun _ hmiddle => ?_
    exact (run_typing hstart hmiddle).enterAccepted_iff_not_wedged

/-- A line read in two pieces. -/
def piecewiseRead : List LineEvent :=
  [.key 97, .key 98, .key charNewline, .read 1, .key charNewline, .read 1]

theorem piecewiseRead_accepted : ∃ final,
    (typingStep 0).run (resetTerminal sampleLayout .zeroed 0) piecewiseRead =
        some final ∧
      (typingStep 0).Throughout (EnterAccepted 0)
        (resetTerminal sampleLayout .zeroed 0) piecewiseRead := by
  have hsome : ((typingStep 0).run (resetTerminal sampleLayout .zeroed 0)
      piecewiseRead).isSome := by decide
  obtain ⟨final, hrun⟩ := Option.isSome_iff_exists.mp hsome
  exact ⟨final, hrun, (enter_accepted_throughout_iff sampleLayout .zeroed 0
    piecewiseRead final hrun).1.mpr (by decide)⟩

/-- A line that fills the buffer, and a read that takes none of it. -/
def emptyRead : List LineEvent :=
  List.replicate 127 (.key 97) ++ [.key charNewline, .read 0]

/-- After that the reader blocks, Enter is refused, and so is every other
key. -/
theorem emptyRead_wedges : ∃ final,
    (typingStep 0).run (resetTerminal sampleLayout .zeroed 0) emptyRead =
        some final ∧
      ¬ EnterAccepted 0 final ∧ Wedged 0 final := by
  have hstate : ((typingStep 0).run (resetTerminal sampleLayout .zeroed 0)
      emptyRead).map (fun tty =>
        (tty.newLineReady 0, (tty.inputBuffer 0).currentLen)) =
      some (0, 128) := by decide +kernel
  obtain ⟨final, hrun, hfinal⟩ := Option.map_eq_some_iff.mp hstate
  obtain ⟨hcounter, hlen⟩ := Prod.mk.inj hfinal
  have htyping := run_typing (resetTerminal_typing sampleLayout .zeroed 0) hrun
  have hnot : ¬ EnterAccepted 0 final := by
    rw [htyping.enterAccepted_iff, final.pending_length, hlen]
    exact fun haccepted => absurd (haccepted hcounter) (by decide)
  refine ⟨final, hrun, hnot, ?_⟩
  by_contra hfree
  exact hnot (htyping.enterAccepted_iff_not_wedged.mpr hfree)

end Runs

end PsychOS
