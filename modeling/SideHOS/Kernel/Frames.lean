import SideHOS.Kernel.State

/-!
# The frame allocator

`memory_allocate_frame`, `memory_allocate_frames`, `memory_free_frame`, `memory_free_frames` and
`memory_nth_segment` of `kernel.c`.  The allocation loops read the cursor as the `int8_t` it is
declared as; the free routines read it through a `uint8_t` pointer.  A `uint8_t` loop counter takes
256 values, so a loop that has used all of them without leaving never leaves.
-/

namespace SideHOS.Kernel

open Machine.Word64 Sharing Sharing.Program

def memoryNthSegment (segment n : ℕ) : Code ℕ := do
  let base ← perform (.loadBase segment)
  pure (add base (mul size4KB n))

/-- `memory_allocate_frame` once a segment with a frame is found: take its last frame, zero it and
make it the first heap page, with one free node. -/
def takeFrame (hhdmOffset segment : ℕ) : Code ℕ := do
  let length ← perform (.loadLength segment)
  let framePhysical ← memoryNthSegment segment (sub length 1)
  let framePointer := addressPhysicalToVirtual hhdmOffset framePhysical
  let length ← perform (.loadLength segment)
  let _ ← perform (.storeLength segment (sub length 1))
  memset framePointer 0 0 size4KB
  let freeSize := size4KB - sizeofHeapPage - sizeofHeapNode
  let node := add framePointer sizeofHeapPage
  let _ ← storeNodeLength node freeSize
  let _ ← storeNodeNext node 0
  let page := framePointer
  let _ ← storePageFreelist page node
  let _ ← storePageLargest page freeSize
  let heapPages ← perform .loadHeapPages
  let _ ← storePageNext page heapPages
  let _ ← perform (.storeHeapPages page)
  pure framePhysical

/-- The scan of `memory_allocate_frame` from `segmentCursor` on. -/
def allocateFrameFrom (hhdmOffset : ℕ) : ℕ → ℕ → Code ℕ
  | 0, _ => .diverge
  | fuel + 1, segmentCursor => do
    let cursor ← perform .loadCursor
    if (segmentCursor : ℤ) < int8 cursor then
      let length ← perform (.loadLength segmentCursor)
      if length > 0 then takeFrame hhdmOffset segmentCursor
      else allocateFrameFrom hhdmOffset fuel ((segmentCursor + 1) % 256)
    else pure 0

def memoryAllocateFrame (hhdmOffset : ℕ) : Code ℕ := allocateFrameFrom hhdmOffset 256 0

/-- `memory_allocate_frames` once a long enough segment is found: take its last `count` frames,
zero them and write the header of a block without a free list. -/
def takeFrames (hhdmOffset count segment : ℕ) : Code ℕ := do
  let length ← perform (.loadLength segment)
  let framePhysical ← memoryNthSegment segment (sub length count)
  let framePointer := addressPhysicalToVirtual hhdmOffset framePhysical
  let length ← perform (.loadLength segment)
  let _ ← perform (.storeLength segment (sub length count))
  let totalSize := mul size4KB count
  memset framePointer 0 0 totalSize
  let freeSize := sub (sub totalSize sizeofHeapPage) sizeofU64
  let headerBase := add framePointer sizeofHeapPage
  let _ ← perform (.store headerBase freeSize)
  let page := framePointer
  let _ ← storePageFreelist page 0
  let _ ← storePageLargest page 0
  pure framePhysical

/-- The scan of `memory_allocate_frames` from `segmentCursor` on. -/
def allocateFramesFrom (hhdmOffset count : ℕ) : ℕ → ℕ → Code ℕ
  | 0, _ => .diverge
  | fuel + 1, segmentCursor => do
    let cursor ← perform .loadCursor
    if (segmentCursor : ℤ) < int8 cursor then
      let length ← perform (.loadLength segmentCursor)
      if length < count then allocateFramesFrom hhdmOffset count fuel ((segmentCursor + 1) % 256)
      else takeFrames hhdmOffset count segmentCursor
    else pure 0

def memoryAllocateFrames (hhdmOffset count : ℕ) : Code ℕ :=
  allocateFramesFrom hhdmOffset count 256 0

/-- The end of `memory_free_frame`: append a segment unless the table is full. -/
def appendFrame (physical : ℕ) : Code Bool := do
  let cursor ← perform .loadCursor
  if cursor = 255 then pure false
  else do
    let index ← perform .loadCursor
    let _ ← perform (.storeBase index physical)
    let _ ← perform (.storeLength index 1)
    let cursor ← perform .loadCursor
    let _ ← perform (.storeCursor (cursor + 1))
    pure true

/-- The scan of `memory_free_frame` from `segmentCursor` on. -/
def freeFrameFrom (physical : ℕ) : ℕ → ℕ → Code Bool
  | 0, _ => .diverge
  | fuel + 1, segmentCursor => do
    let cursor ← perform .loadCursor
    if segmentCursor < cursor then
      let base ← perform (.loadBase segmentCursor)
      let length ← perform (.loadLength segmentCursor)
      if add base (mul length size4KB) = physical then do
        let length ← perform (.loadLength segmentCursor)
        let _ ← perform (.storeLength segmentCursor (add length 1))
        pure true
      else do
        let base ← perform (.loadBase segmentCursor)
        if add physical size4KB = base then do
          let length ← perform (.loadLength segmentCursor)
          let _ ← perform (.storeLength segmentCursor (add length 1))
          let _ ← perform (.storeBase segmentCursor physical)
          pure true
        else freeFrameFrom physical fuel ((segmentCursor + 1) % 256)
    else appendFrame physical

def memoryFreeFrame (physical : ℕ) : Code Bool := freeFrameFrom physical 256 0

def memoryFreeFrames (physical frameCount : ℕ) : Code Bool := do
  let index ← perform .loadCursor
  let _ ← perform (.storeBase index physical)
  let _ ← perform (.storeLength index frameCount)
  let cursor ← perform .loadCursor
  let _ ← perform (.storeCursor (cursor + 1))
  pure true

end SideHOS.Kernel
