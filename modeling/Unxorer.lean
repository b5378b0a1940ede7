import Unxorer.Aes.Fips197
import Unxorer.Vector.UpperHalf
import Unxorer.Heap.Allocation
import Unxorer.Emulator.Calls
import Unxorer.Emulator.Exploration
import Unxorer.Emulator.Budget
import Unxorer.Emulator.Restart
import Unxorer.Emulator.FaultingStores
import Unxorer.Emulator.FoundStrings
import Unxorer.Emulator.Forcing
import Unxorer.Emulator.InstructionLimit
import Unxorer.Emulator.LoopEntries
import Unxorer.Emulator.LoopWrites
import Unxorer.Emulator.DirtyPages
import Unxorer.Aes.KeySchedule
import Unxorer.Emulator.WideStrings
import Unxorer.Vector.Addressing
import Unxorer.Vector.FailedReads
import Unxorer.Heap.HostBuffers
import Unxorer.Plugin.Interleavings
import Unxorer.Emulator.RescannedPages
import Unxorer.Emulator.RetriedAccesses
import Unxorer.Strings.ScanLoop
import Unxorer.Emulator.RegisterStrings
import Unxorer.Stubs.Dispatch
import Unxorer.Heap.Calloc
import Unxorer.Heap.Realloc
import Unxorer.Stubs.BoundedCopies
import Unxorer.Heap.Placement
import Unxorer.Vector.Shifts
import Unxorer.Strings.Escaping
import Unxorer.Emulator.InstructionSnapshot
import Unxorer.Stubs.StringCopies
import Unxorer.Emulator.Provenance
import Unxorer.Plugin.Display
import Unxorer.Emulator.Counting
import Unxorer.Plugin.Isolation
import Unxorer.Plugin.Totals
import Unxorer.Plugin.Stopping
import Unxorer.Emulator.PackedCode
import Unxorer.Emulator.AesCode
import Unxorer.Emulator.Resumption
import Unxorer.Emulator.Coverage
import Unxorer.Emulator.TrackedTexts
import Unxorer.Emulator.ExternalCalls
import Unxorer.Plugin.Origins
