/-
How the scancodes are shared out among the interrupts.  The handler prints
every character of one invocation on the terminal that was active at its start.
That terminal is the right one unless the same invocation has switched
terminals before the character.
-/
import PsychOS.Keyboard
import PsychOS.TerminalIsolation

namespace PsychOS

/-- In one invocation, no scancode draws while another terminal is active than
at the start. -/
def Timely (keys : KeyState) (codes : List UInt8) : Prop :=
  StepFn.Along KeyState.step
    (fun now code => now.Draws code → now.activeTerminal = keys.activeTerminal)
    keys codes

/-- So it is in every invocation. -/
def BatchesTimely (keys : KeyState) (batches : List (List UInt8)) : Prop :=
  StepFn.Along (StepFn.run KeyState.step) Timely keys batches

instance (keys : KeyState) : DecidablePred (Timely keys) := fun codes =>
  inferInstanceAs (Decidable (StepFn.Along _ _ keys codes))

instance (keys : KeyState) : DecidablePred (BatchesTimely keys) :=
  fun batches => inferInstanceAs (Decidable (StepFn.Along _ _ keys batches))

/-- Every scancode that draws does so on the terminal that is active when it is
processed. -/
def DrawsOnActive (layout : Layout) (kb : Keyboard)
    (batches : List (List UInt8)) : Prop :=
  StepFn.Along (keyboardHandler layout)
    (fun entered codes =>
      StepFn.Along (handleScancode layout entered.tty.activeTerminal)
        (fun now code => now.keyState.Draws code →
          now.tty.activeTerminal = entered.tty.activeTerminal)
        entered codes)
    kb batches

section Batches

variable {layout : Layout}

theorem keyboardHandler_keyState (kb : Keyboard) (codes : List UInt8) :
    (keyboardHandler layout kb codes).map Keyboard.keyState =
      StepFn.run KeyState.step kb.keyState codes :=
  StepFn.run_map_view (handleScancode_keyState kb.tty.activeTerminal) kb codes

/-- A timely invocation does what its scancodes do one by one, each on the
terminal that is active. -/
theorem keyboardHandler_of_timely {kb : Keyboard} {codes : List UInt8}
    (htimely : Timely kb.keyState codes) :
    keyboardHandler layout kb codes = StepFn.run
      (fun now code => handleScancode layout now.tty.activeTerminal now code)
      kb codes := by
  refine StepFn.run_congr_along ?_
    ((StepFn.along_view (handleScancode_keyState kb.tty.activeTerminal)
      (fun _ _ => Iff.rfl) kb codes).mpr htimely)
  intro now code hdraws
  exact handleScancode_congr fun h => (hdraws h).symm

theorem run_of_batchesTimely {kb : Keyboard} {batches : List (List UInt8)}
    (htimely : BatchesTimely kb.keyState batches) :
    StepFn.run (keyboardHandler layout) kb batches = StepFn.run
      (fun now code => handleScancode layout now.tty.activeTerminal now code)
      kb batches.flatten := by
  rw [← StepFn.run_flatten]
  refine StepFn.run_congr_along ?_
    ((StepFn.along_view keyboardHandler_keyState (fun _ _ => Iff.rfl)
      kb batches).mpr htimely)
  intro entered codes htimely
  exact keyboardHandler_of_timely htimely

theorem drawsOnActive_iff (kb : Keyboard) (batches : List (List UInt8)) :
    DrawsOnActive layout kb batches ↔ BatchesTimely kb.keyState batches := by
  refine StepFn.along_view keyboardHandler_keyState ?_ kb batches
  intro entered codes
  refine StepFn.along_view
    (handleScancode_keyState entered.tty.activeTerminal) ?_ entered codes
  intro now code
  exact Iff.rfl

theorem run_keyState (kb : Keyboard) (batches : List (List UInt8)) :
    (StepFn.run (keyboardHandler layout) kb batches).map Keyboard.keyState =
      StepFn.run KeyState.step kb.keyState batches.flatten := by
  rw [StepFn.run_map_view keyboardHandler_keyState, StepFn.run_flatten]

end Batches

/-- Two ways to share out one stream of scancodes.  The keys, caps lock and the
active terminal never depend on the choice.  Characters reach the terminal that
is active exactly in the timely ones, and those leave the same terminals. -/
theorem timely_batches_agree (layout : Layout) (kb : Keyboard)
    {batches other : List (List UInt8)}
    (hstream : batches.flatten = other.flatten) :
    (StepFn.run (keyboardHandler layout) kb batches).map Keyboard.keyState =
        (StepFn.run (keyboardHandler layout) kb other).map Keyboard.keyState ∧
      (DrawsOnActive layout kb batches ↔ BatchesTimely kb.keyState batches) ∧
      (BatchesTimely kb.keyState batches → BatchesTimely kb.keyState other →
        StepFn.run (keyboardHandler layout) kb batches =
          StepFn.run (keyboardHandler layout) kb other) := by
  refine ⟨?_, drawsOnActive_iff kb batches, ?_⟩
  · rw [run_keyState, run_keyState, hstream]
  · intro htimely hother
    rw [run_of_batchesTimely htimely, run_of_batchesTimely hother, hstream]

/-- A keyboard with no key down. -/
def idleKeyboard : Keyboard where
  tty := multipleTerminalInit sampleLayout Tty.zeroed
  keyboardState := fun _ => false
  capsLockStatus := false

/-- Alt+F2 in one interrupt and the letter in the next, or one interrupt for
every scancode. -/
theorem switch_then_letter_agree :
    StepFn.run (keyboardHandler sampleLayout) idleKeyboard
        [[0x38, 0x3C, 0xB8], [0x1E]] =
      StepFn.run (keyboardHandler sampleLayout) idleKeyboard
        [[0x38], [0x3C], [0xB8], [0x1E]] := by
  have hagree := @timely_batches_agree sampleLayout idleKeyboard
    [[0x38, 0x3C, 0xB8], [0x1E]] [[0x38], [0x3C], [0xB8], [0x1E]] rfl
  exact hagree.2.2 (by decide +kernel) (by decide +kernel)

/-- Alt+F2 and a letter within one interrupt: the second terminal is active and
the letter is in the input buffer of the first. -/
theorem switch_and_letter_misplaced :
    ((StepFn.run (keyboardHandler sampleLayout) idleKeyboard
        [[0x38, 0x3C, 0xB8, 0x1E]]).map fun kb =>
      (kb.tty.activeTerminal, kb.tty.pending 0, kb.tty.pending 1)) =
        some (1, [97], []) ∧
    ((StepFn.run (keyboardHandler sampleLayout) idleKeyboard
        [[0x38], [0x3C], [0xB8], [0x1E]]).map fun kb =>
      (kb.tty.activeTerminal, kb.tty.pending 0, kb.tty.pending 1)) =
        some (1, [], [97]) := by
  constructor <;> decide +kernel

end PsychOS
