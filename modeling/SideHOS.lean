import SideHOS.Machine.Word64
import SideHOS.Machine.ByteMemory
import SideHOS.Linked.Path
import SideHOS.Sharing.Program
import SideHOS.Sharing.Interleaving
import SideHOS.Kernel.State
import SideHOS.Kernel.Frames
import SideHOS.Kernel.Heap
import SideHOS.Kernel.Serialization
import SideHOS.Machine.StridedRun
import SideHOS.Machine.Extent
import SideHOS.Frames.Table
import SideHOS.Frames.Run
import SideHOS.Transition.Run
import SideHOS.Frames.Change
import SideHOS.Frames.Spec
import SideHOS.Frames.Partition
import SideHOS.Frames.Retention
import SideHOS.Heap.FreeNodes
import SideHOS.Heap.Page
import SideHOS.Heap.PageCode
import SideHOS.Heap.Represent
import SideHOS.Heap.Change
import SideHOS.Heap.Blocks
import SideHOS.Heap.Calls
import SideHOS.Heap.Callers
import SideHOS.Heap.Isolation
import SideHOS.Heap.Conservation
import SideHOS.Heap.Exhaustion
import SideHOS.Heap.Ownership
import SideHOS.Kernel.Tasks
import SideHOS.Tasks.Queue
import SideHOS.Kernel.Dispatch
import SideHOS.Tasks.Ownership
import SideHOS.Tasks.Exclusive
import SideHOS.Machine.X86
import SideHOS.Kernel.Context
import SideHOS.Tasks.Switch
import SideHOS.Tasks.Dispatched
import SideHOS.Kernel.Boot
import SideHOS.Boot.Intake
import SideHOS.Sharing.Trace
import SideHOS.Boot.Capacity
import SideHOS.Heap.Untouched
import SideHOS.Heap.Requests
import SideHOS.Heap.Tidy
import SideHOS.Heap.Neighbours
import SideHOS.Heap.Coalescing
import SideHOS.Heap.Largest
import SideHOS.Kernel.Serial
import SideHOS.Serial.Output
import SideHOS.Serial.Messages
import SideHOS.Kernel.Startup
import SideHOS.Boot.Release
import SideHOS.Boot.Order
import SideHOS.Sharing.Embedding
import SideHOS.Kernel.Shell
import SideHOS.Shell.Commands
import SideHOS.Shell.History
import SideHOS.Shell.Holdings
import SideHOS.Shell.Blocks
import SideHOS.Shell.Frames
import SideHOS.Shell.Pointers
import SideHOS.Heap.WellFormed
import SideHOS.Heap.Search
import SideHOS.Heap.SizeWords
import SideHOS.Heap.Recovery
import SideHOS.Heap.Alignment
import SideHOS.Heap.RoundTrip
import SideHOS.Tasks.Resume
import SideHOS.Tasks.Launch
import SideHOS.Heap.Reuse
import SideHOS.Tasks.StartState
import SideHOS.Serial.Strings
import SideHOS.Serial.Command
import SideHOS.Serial.Editing
import SideHOS.Serial.Hexadecimal
import SideHOS.Bytes.Memmove
import SideHOS.Heap.Footprint
import SideHOS.Sharing.Custody
import SideHOS.Heap.Custody
import SideHOS.Kernel.Creation
import SideHOS.Heap.Lending
import SideHOS.Tasks.Stored
import SideHOS.Tasks.Creation
import SideHOS.Tasks.Startup
import SideHOS.Boot.Tasks
import SideHOS.Machine.Uart
import SideHOS.Sharing.Guarded
import SideHOS.Kernel.Ports
import SideHOS.Serial.Transmission
import SideHOS.Serial.Reception
import SideHOS.Machine.Terminal
import SideHOS.Serial.Echo
import SideHOS.Kernel.Compare
import SideHOS.Bytes.Compare
import SideHOS.Kernel.Console
import SideHOS.Shell.Console
import SideHOS.Sharing.Places
import SideHOS.Tasks.Executed
import SideHOS.Tasks.Handout
import SideHOS.Tasks.Completion
import SideHOS.Tasks.Shielded
import SideHOS.Tasks.Recycled
import SideHOS.Tasks.FirstDispatch
import SideHOS.Heap.Blank
