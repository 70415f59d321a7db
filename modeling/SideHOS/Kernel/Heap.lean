import SideHOS.Kernel.Frames

/-!
# The heap

`kmalloc` and `kfree` of `kernel.c`, with each loop as a recursion of its own.  A walk along
pointers that takes `2 ^ 64` steps has met some address twice and never ends, so that many steps
of fuel are enough to run every walk that does.  Lengths are declared `int64_t` but are compared
with and added to `uint64_t` values, which makes every comparison and sum unsigned.
-/

namespace SideHOS.Kernel

open Machine.Word64 Sharing Sharing.Program

/-- As many steps as there are addresses. -/
@[irreducible]
def walkFuel : ℕ := 2 ^ 64

/-- `while (page && page->largest < total_size) page = page->next;` -/
def pageWalk (totalSize : ℕ) : ℕ → ℕ → Code ℕ
  | 0, _ => .diverge
  | fuel + 1, page =>
    if page = 0 then pure 0
    else do
      let largest ← loadPageLargest page
      if largest < totalSize then do
        let next ← loadPageNext page
        pageWalk totalSize fuel next
      else pure page

/-- `while (node && node->length < total_size)`, answering `prev` and `node`. -/
def nodeSearch (totalSize : ℕ) : ℕ → ℕ → ℕ → Code (ℕ × ℕ)
  | 0, _, _ => .diverge
  | fuel + 1, prev, node =>
    if node = 0 then pure (prev, 0)
    else do
      let length ← loadNodeLength node
      if length < totalSize then do
        let next ← loadNodeNext node
        nodeSearch totalSize fuel node next
      else pure (prev, node)

def maximumScan : ℕ → ℕ → ℕ → Code ℕ
  | 0, _, _ => .diverge
  | fuel + 1, cursor, maxSize =>
    if cursor = 0 then pure maxSize
    else do
      let length ← loadNodeLength cursor
      if length > maxSize then do
        let length ← loadNodeLength cursor
        let next ← loadNodeNext cursor
        maximumScan fuel next length
      else do
        let next ← loadNodeNext cursor
        maximumScan fuel next maxSize

/-- `prev->next = replacement`, or `page->freelist = replacement` at the head of the list. -/
def relink (page prev replacement : ℕ) : Code ℕ :=
  if prev ≠ 0 then storeNodeNext prev replacement else storePageFreelist page replacement

/-- `kmalloc` from the node that was found: write the size header, split the node or use all of
it, relink the list and recompute `largest`. -/
def carveNode (size totalSize page prev node : ℕ) : Code ℕ := do
  let next ← loadNodeNext node
  let base := add node sizeofHeapNode
  let _ ← perform (.store base size)
  let returnBase := add base sizeofU64
  let newNext := add base totalSize
  let length ← loadNodeLength node
  let remainingSize := sub length totalSize
  if remainingSize < sizeofHeapNode then do
    let _ ← perform (.store base (add size remainingSize))
    let _ ← relink page prev next
    let head ← loadPageFreelist page
    let maxSize ← maximumScan walkFuel head 0
    let _ ← storePageLargest page maxSize
    let _ ← perform .lockRelease
    pure returnBase
  else do
    let newNode := newNext
    let _ ← storeNodeLength newNode (sub remainingSize sizeofHeapNode)
    let _ ← storeNodeNext newNode next
    let _ ← relink page prev newNode
    let head ← loadPageFreelist page
    let maxSize ← maximumScan walkFuel head 0
    let _ ← storePageLargest page maxSize
    let _ ← perform .lockRelease
    pure returnBase

/-- `kmalloc` within a page: search its free list and carve the first node that is long enough. -/
def kmallocIn (size totalSize page : ℕ) : Code ℕ := do
  let head ← loadPageFreelist page
  let (prev, node) ← nodeSearch totalSize walkFuel 0 head
  if node = 0 then do
    let _ ← perform .lockRelease
    pure 0
  else carveNode size totalSize page prev node

/-- The page `kmalloc` uses: the first with a large enough `largest`, or a new one. -/
def choosePage (hhdmOffset totalSize : ℕ) : Code ℕ := do
  let heapPages ← perform .loadHeapPages
  let page ← pageWalk totalSize walkFuel heapPages
  if page = 0 then do
    let newPhysicalFrame ← memoryAllocateFrame hhdmOffset
    pure (addressPhysicalToVirtual hhdmOffset newPhysicalFrame)
  else do
    let largest ← loadPageLargest page
    if largest < totalSize then do
      let newPhysicalFrame ← memoryAllocateFrame hhdmOffset
      pure (addressPhysicalToVirtual hhdmOffset newPhysicalFrame)
    else pure page

/-- The frames a block of `size` bytes takes with its header, when it gets frames of its own. -/
def frameCounts (size : ℕ) : ℕ :=
  let totalSize := add (add sizeofHeapPage sizeofU64) size
  sub (add totalSize size4KB) 1 / size4KB

/-- `kmalloc` with the lock taken, for a block that gets frames of its own. -/
def kmallocLarge (hhdmOffset size : ℕ) : Code ℕ := do
  let physicalFrame ← memoryAllocateFrames hhdmOffset (frameCounts size)
  let virtualFrame := addressPhysicalToVirtual hhdmOffset physicalFrame
  let returnBase := add (add virtualFrame sizeofHeapPage) sizeofU64
  let _ ← perform .lockRelease
  pure returnBase

/-- `kmalloc` with the lock taken, for a block inside a heap page. -/
def kmallocSmall (hhdmOffset size : ℕ) : Code ℕ := do
  let totalSize := add size sizeofU64
  let page ← choosePage hhdmOffset totalSize
  kmallocIn size totalSize page

def kmalloc (hhdmOffset size : ℕ) : Code ℕ :=
  .await .lockAcquire <|
    if size > smallPageMaximumSize then kmallocLarge hhdmOffset size
    else kmallocSmall hhdmOffset size

/-- `while (cursor && cursor < node)`, answering `prev` and `cursor`. -/
def insertWalk (node : ℕ) : ℕ → ℕ → ℕ → Code (ℕ × ℕ)
  | 0, _, _ => .diverge
  | fuel + 1, prev, cursor =>
    if cursor = 0 then pure (prev, 0)
    else if cursor < node then do
      let next ← loadNodeNext cursor
      insertWalk node fuel cursor next
    else pure (prev, cursor)

/-- The merge loop of `kfree`, from `mergeCursor` to the end of the list. -/
def mergeLoop : ℕ → ℕ → Code Unit
  | 0, _ => .diverge
  | fuel + 1, mergeCursor =>
    if mergeCursor = 0 then pure ()
    else do
      let next ← loadNodeNext mergeCursor
      if next = 0 then pure ()
      else do
        let length ← loadNodeLength mergeCursor
        let endOfCursor := add (add (add mergeCursor sizeofHeapNode) length) sizeofU64
        let next ← loadNodeNext mergeCursor
        if endOfCursor = next then do
          let length ← loadNodeLength mergeCursor
          let _ ← storeNodeLength mergeCursor (add length sizeofHeapNode)
          let length ← loadNodeLength mergeCursor
          let next ← loadNodeNext mergeCursor
          let nextLength ← loadNodeLength next
          let _ ← storeNodeLength mergeCursor (add length nextLength)
          let next ← loadNodeNext mergeCursor
          let nextNext ← loadNodeNext next
          let _ ← storeNodeNext mergeCursor nextNext
          mergeLoop fuel mergeCursor
        else do
          let next ← loadNodeNext mergeCursor
          mergeLoop fuel next

/-- `kfree` of a block with frames of its own. -/
def kfreeLarge (physicalFrame size : ℕ) : Code Bool := do
  let _ ← memoryFreeFrames physicalFrame (frameCounts size)
  let _ ← perform .lockRelease
  pure true

/-- `kfree` of a block inside a heap page: turn it into a free node, insert the node in address
order and merge. -/
def kfreeSmall (virtualFrame base : ℕ) : Code Bool := do
  let node := sub base sizeofHeapNode
  let size ← perform (.load base)
  let _ ← storeNodeLength node size
  let page := virtualFrame
  let head ← loadPageFreelist page
  let (prev, cursor) ← insertWalk node walkFuel 0 head
  if prev = 0 then do
    let _ ← storeNodeNext node cursor
    let _ ← storePageFreelist page node
    mergeLoop walkFuel node
    let _ ← perform .lockRelease
    pure true
  else do
    let _ ← storeNodeNext prev node
    let _ ← storeNodeNext node cursor
    mergeLoop walkFuel prev
    let _ ← perform .lockRelease
    pure true

def kfree (hhdmOffset address : ℕ) : Code Bool :=
  .await .lockAcquire do
    let virtualFrame := pointerFrame address
    let physicalFrame := addressVirtualToPhysical hhdmOffset virtualFrame
    let base := sub address sizeofU64
    let size ← perform (.load base)
    if size > smallPageMaximumSize then kfreeLarge physicalFrame size
    else kfreeSmall virtualFrame base

end SideHOS.Kernel
