import CheetOS.CallReturn
import CheetOS.Isolation
import CheetOS.Allocation
import CheetOS.Sequential
import CheetOS.Lib.Words
import CheetOS.Strings
import CheetOS.Arguments
import CheetOS.FailedExecute
import CheetOS.Names
import CheetOS.InterruptMask
import CheetOS.Keyboard
import CheetOS.Lib.TextWindow
import CheetOS.TextScreen
import CheetOS.LineEcho
import CheetOS.Enumeration
import CheetOS.FailedRead
import CheetOS.ImageBounds
import CheetOS.ClockDescriptor
import CheetOS.VideoMapping
import CheetOS.Lib.Trace
import CheetOS.PointerWrites
import CheetOS.Modifiers
import CheetOS.Opening
import CheetOS.BufferBounds
import CheetOS.Tokenizer
import CheetOS.ArgumentBounds
import CheetOS.Overrun
import CheetOS.Framing
import CheetOS.ParseHistory
import CheetOS.WaitingMemory
import CheetOS.CommandBuffer
import CheetOS.Loading
import CheetOS.ClockRate
import CheetOS.ClockRead
import CheetOS.Lib.Numeral
import CheetOS.Conversions
import CheetOS.Printf
import CheetOS.Lib.MemoryBlock
import CheetOS.Lib.X86
import CheetOS.MemoryRoutines
import CheetOS.Lib.ProtectedMode
import CheetOS.KernelEntry
import CheetOS.DescriptorTables
import CheetOS.InterruptController
import CheetOS.InterruptHandlers
import CheetOS.ProgramEntry
import CheetOS.Grep
import CheetOS.ProgramReturn
