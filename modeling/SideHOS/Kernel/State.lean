import SideHOS.Machine.Word64
import SideHOS.Machine.ByteMemory
import SideHOS.Sharing.Program

/-!
# The allocator's state and its shared accesses

`Memory`, `memory_lock` and the memory behind the direct map, as `kernel.h` lays them out.  Static
data lives in the kernel image and is never reached through the direct map, so it is kept as
records of its own; memory behind pointers is byte addressed.  `Access` lists the single loads
and stores that the allocator's code performs on this state, and `exec` is their meaning.

The table `FreeList.segments` has 255 entries, and `memory_free_frames` may store at index 255.
That entry would begin where `cursor` is and extend over `heap_pages`, so a store there changes
these two fields.
-/

namespace SideHOS.Kernel

open Machine Machine.Word64 Machine.ByteMemory Sharing Sharing.Program

abbrev size4KB : ℕ := 0x1000

/-- `sizeof(HeapPage)`: `freelist` at 0, `frames` at 8, `largest` at 16, `next` at 24. -/
abbrev sizeofHeapPage : ℕ := 32

/-- `sizeof(HeapNode)`: `length` at 0, `next` at 8. -/
abbrev sizeofHeapNode : ℕ := 16

/-- `sizeof(uint64_t)`. -/
abbrev sizeofU64 : ℕ := 8

abbrev smallPageMaximumSize : ℕ := size4KB - sizeofHeapPage - sizeofHeapNode - sizeofU64

/-- `Segment`: a run of physical frames. -/
@[ext]
structure Segment where
  base : ℕ
  length : ℕ

/-- `FreeList`.  The cursor is the byte in memory, which some code reads as signed. -/
@[ext]
structure FreeList where
  segments : ℕ → Segment
  cursor : ℕ

@[ext]
structure MemoryContext where
  freelist : FreeList
  heapPages : ℕ

/-- `Memory`, `memory_lock`, and the bytes behind the direct map. -/
@[ext]
structure AllocatorState where
  bytes : ByteMemory.Memory
  context : MemoryContext
  memoryLock : ℕ

def FreeList.setSegment (freelist : FreeList) (index : ℕ) (segment : Segment) : FreeList :=
  { freelist with segments := Function.update freelist.segments index segment }

/-- The store `segments[index].base = value`; entry 255 starts at the cursor. -/
def MemoryContext.storeBase (context : MemoryContext) (index value : ℕ) : MemoryContext :=
  if index < 255 then
    { context with
      freelist := context.freelist.setSegment index
        { context.freelist.segments index with base := value } }
  else { context with freelist := { context.freelist with cursor := value % 256 } }

/-- The store `segments[index].length = value`; the length of entry 255 is `heap_pages`. -/
def MemoryContext.storeLength (context : MemoryContext) (index value : ℕ) : MemoryContext :=
  if index < 255 then
    { context with
      freelist := context.freelist.setSegment index
        { context.freelist.segments index with length := value } }
  else { context with heapPages := value }

/-- One load, one store, or one locked exchange. -/
inductive Access where
  | load (address : ℕ)
  | store (address value : ℕ)
  | storeByte (address : ℕ) (value : UInt8)
  | loadCursor
  | storeCursor (value : ℕ)
  | loadBase (index : ℕ)
  | storeBase (index value : ℕ)
  | loadLength (index : ℕ)
  | storeLength (index value : ℕ)
  | loadHeapPages
  | storeHeapPages (value : ℕ)
  | lockAcquire
  | lockRelease
  deriving DecidableEq

/-- The answer of an access and the state after it.  `lock cmpxchgb` compares the lock with 0 and
stores 1 if they agree, in one step, and answers whether it stored. -/
def exec : Access → AllocatorState → ℕ × AllocatorState
  | .load address, state => (load64 state.bytes address, state)
  | .store address value, state => (0, { state with bytes := store64 state.bytes address value })
  | .storeByte address value, state =>
      (0, { state with bytes := store8 state.bytes address value })
  | .loadCursor, state => (state.context.freelist.cursor, state)
  | .storeCursor value, state =>
      (0, { state with context.freelist.cursor := value % 256 })
  | .loadBase index, state => ((state.context.freelist.segments index).base, state)
  | .storeBase index value, state =>
      (0, { state with context := state.context.storeBase index value })
  | .loadLength index, state => ((state.context.freelist.segments index).length, state)
  | .storeLength index value, state =>
      (0, { state with context := state.context.storeLength index value })
  | .loadHeapPages, state => (state.context.heapPages, state)
  | .storeHeapPages value, state => (0, { state with context.heapPages := value })
  | .lockAcquire, state =>
      if state.memoryLock = 0 then (1, { state with memoryLock := 1 }) else (0, state)
  | .lockRelease, state => (0, { state with memoryLock := 0 })

abbrev Code (α : Type) := Program Access α

section Access

variable {α : Type} (state : AllocatorState) (address value index : ℕ) (byte : UInt8)
  (next : ℕ → Code α)

@[simp]
theorem run_load : run exec (perform (.load address) >>= next) state =
    run exec (next (load64 state.bytes address)) state := rfl

@[simp]
theorem run_store : run exec (perform (.store address value) >>= next) state =
    run exec (next 0) { state with bytes := store64 state.bytes address value } := rfl

@[simp]
theorem run_storeByte : run exec (perform (.storeByte address byte) >>= next) state =
    run exec (next 0) { state with bytes := store8 state.bytes address byte } := rfl

@[simp]
theorem run_loadCursor : run exec (perform .loadCursor >>= next) state =
    run exec (next state.context.freelist.cursor) state := rfl

@[simp]
theorem run_storeCursor : run exec (perform (.storeCursor value) >>= next) state =
    run exec (next 0) { state with context.freelist.cursor := value % 256 } := rfl

@[simp]
theorem run_loadBase : run exec (perform (.loadBase index) >>= next) state =
    run exec (next (state.context.freelist.segments index).base) state := rfl

@[simp]
theorem run_storeBase : run exec (perform (.storeBase index value) >>= next) state =
    run exec (next 0) { state with context := state.context.storeBase index value } := rfl

@[simp]
theorem run_loadLength : run exec (perform (.loadLength index) >>= next) state =
    run exec (next (state.context.freelist.segments index).length) state := rfl

@[simp]
theorem run_storeLength : run exec (perform (.storeLength index value) >>= next) state =
    run exec (next 0) { state with context := state.context.storeLength index value } := rfl

@[simp]
theorem run_loadHeapPages : run exec (perform .loadHeapPages >>= next) state =
    run exec (next state.context.heapPages) state := rfl

@[simp]
theorem run_storeHeapPages : run exec (perform (.storeHeapPages value) >>= next) state =
    run exec (next 0) { state with context.heapPages := value } := rfl

@[simp]
theorem run_lockRelease : run exec (perform .lockRelease >>= next) state =
    run exec (next 0) { state with memoryLock := 0 } := rfl

end Access

def loadNodeLength (node : ℕ) : Code ℕ := perform (.load node)

def storeNodeLength (node value : ℕ) : Code ℕ := perform (.store node value)

def loadNodeNext (node : ℕ) : Code ℕ := perform (.load (add node 8))

def storeNodeNext (node value : ℕ) : Code ℕ := perform (.store (add node 8) value)

def loadPageFreelist (page : ℕ) : Code ℕ := perform (.load page)

def storePageFreelist (page value : ℕ) : Code ℕ := perform (.store page value)

def loadPageLargest (page : ℕ) : Code ℕ := perform (.load (add page 16))

def storePageLargest (page value : ℕ) : Code ℕ := perform (.store (add page 16) value)

def loadPageNext (page : ℕ) : Code ℕ := perform (.load (add page 24))

def storePageNext (page value : ℕ) : Code ℕ := perform (.store (add page 24) value)

/-- `memset`: one byte store at a time, from `index` up to `index + count`. -/
def memset (pointer : ℕ) (value : UInt8) (index : ℕ) : ℕ → Code Unit
  | 0 => pure ()
  | count + 1 => do
    let _ ← perform (.storeByte (add pointer index) value)
    memset pointer value (index + 1) count

def addressVirtualToPhysical (hhdmOffset virtual : ℕ) : ℕ := sub virtual hhdmOffset

def addressPhysicalToVirtual (hhdmOffset physical : ℕ) : ℕ := add physical hhdmOffset

/-- `pointer_frame`: the address with its low twelve bits cleared. -/
def pointerFrame (address : ℕ) : ℕ := address / 0x1000 * 0x1000

end SideHOS.Kernel
