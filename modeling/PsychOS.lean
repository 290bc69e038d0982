import PsychOS.Lib.Memory
import PsychOS.Lib.Run
import PsychOS.Lib.Execution
import PsychOS.Lib.Ring
import PsychOS.Lib.PageWalk
import PsychOS.Lib.Chunks
import PsychOS.Lib.NestedCalls
import PsychOS.Lib.RoundRobin
import PsychOS.Lib.TextRows
import PsychOS.CircularBuffer
import PsychOS.CircularDeque
import PsychOS.Terminal
import PsychOS.TerminalInput
import PsychOS.LineDiscipline
import PsychOS.NewlineCounter
import PsychOS.KeyboardProgress
import PsychOS.TerminalScreen
import PsychOS.ScreenText
import PsychOS.TerminalIsolation
import PsychOS.CursorBounds
import PsychOS.Paging
import PsychOS.AddressSpaces
import PsychOS.Filesystem
import PsychOS.FileContents
import PsychOS.Descriptors
import PsychOS.DescriptorCalls
import PsychOS.DescriptorStreams
import PsychOS.Kernel
import PsychOS.ProcessTable
import PsychOS.ProcessChains
import PsychOS.Boot
import PsychOS.CommandFields
import PsychOS.ProcessTree
import PsychOS.ExecuteHalt
import PsychOS.Scheduler
import PsychOS.VideoMapping
import PsychOS.UserPointers
import PsychOS.BufferBounds
import PsychOS.DirectoryLookup
import PsychOS.DescriptorTable
import PsychOS.WholeSystem
import PsychOS.VirtualClocks
import PsychOS.RtcDescriptors
import PsychOS.FailedExecute
import PsychOS.Arguments
import PsychOS.BootMemory
import PsychOS.SlotReuse
import PsychOS.CursorMotion
import PsychOS.TypingUndo
import PsychOS.Keyboard
import PsychOS.KeyboardBatches
import PsychOS.Redraw
import PsychOS.UserMode
import PsychOS.RootRestart
import PsychOS.KernelStacks
import PsychOS.DriverBounds
import PsychOS.Lib.Numerals
import PsychOS.NumberFormat
import PsychOS.Lib.StringInstructions
import PsychOS.MemoryRoutines
import PsychOS.Grep
import PsychOS.BlinkList
import PsychOS.BlinkRefinement
import PsychOS.BlinkSchedule
import PsychOS.Lib.Programs
import PsychOS.ProgramCalls
import PsychOS.ProgramRuns
import PsychOS.InterruptEntry
import PsychOS.LibraryCalls
import PsychOS.ProgramStart
import PsychOS.Starvation
import PsychOS.Lib.Refinement
import PsychOS.SystemInput
import PsychOS.WaitingReads
import PsychOS.Lib.InterruptController
import PsychOS.PicDriver
