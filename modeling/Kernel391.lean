import Kernel391.FilesysLookup
import Kernel391.DescriptorTable
import Kernel391.SequentialRead
import Kernel391.ReadData
import Kernel391.FilesysSafety
import Kernel391.FailedReads
import Kernel391.DirectoryScan
import Kernel391.Rtc
import Kernel391.RtcRate
import Kernel391.RtcWait
import Kernel391.RtcOpen
import Kernel391.Pic
import Kernel391.PagingRefinement
import Kernel391.MapAcceptance
import Kernel391.LineDiscipline
import Kernel391.ReaderSteps
import Kernel391.LineDelivery
import Kernel391.TerminalRead
import Kernel391.ScreenIsolation
import Kernel391.TerminalWrite
import Kernel391.CursorInvariant
import Kernel391.NumberText
import Kernel391.Echo
import Kernel391.Tokenizer
import Kernel391.CopyString
import Kernel391.ExecuteBuffers
import Kernel391.Executable
import Kernel391.HaltFrame
import Kernel391.ShellSlots
import Kernel391.AddressSpace
import Kernel391.KernelStack
import Kernel391.Preemption
import Kernel391.Getargs
import Kernel391.UserPages
import Kernel391.ProgramLoading
import Kernel391.Vidmap
import Kernel391.UserMemory
import Kernel391.UserStores
import Kernel391.MemoryRoutines
import Kernel391.Linkage
import Kernel391.GrepSafety
import Kernel391.BlinkSync
import Kernel391.FishMain
