import SideHOS.Frames.Table

/-!
# What the frame allocator computes

Each program of the frame allocator, run alone on a sound table, is a search of the segment table
followed by one change of it.  `firstFit` and `freeSlot` are these searches, `shrunk`, `returned`
and `appended` the changes; the `run_` theorems say that the programs compute exactly them.
-/

namespace SideHOS.Frames

open Kernel Machine Machine.Word64 Machine.ByteMemory Sharing Sharing.Program

/-! ## Searches and table changes -/

/-- The first scanned entry with at least `count` frames. -/
def firstFit (freelist : FreeList) (count : ℕ) : Option ℕ :=
  (List.range (scanLimit freelist)).find? fun index ↦
    decide (count ≤ (freelist.segments index).length)

/-- `physical` is where the segment ends. -/
def endAdjacent (segment : Segment) (physical : ℕ) : Bool :=
  add segment.base (mul segment.length size4KB) = physical

/-- `physical` is the frame before the segment. -/
def startAdjacent (segment : Segment) (physical : ℕ) : Bool :=
  add physical size4KB = segment.base

/-- The first entry that `physical` extends. -/
def freeSlot (freelist : FreeList) (physical : ℕ) : Option ℕ :=
  (List.range freelist.cursor).find? fun index ↦
    endAdjacent (freelist.segments index) physical ||
      startAdjacent (freelist.segments index) physical

/-- The first of the last `count` frames of a segment. -/
def topFrame (segment : Segment) (count : ℕ) : ℕ := segment.base + 4096 * (segment.length - count)

/-- The table after taking the last `count` frames of an entry. -/
def shrunk (freelist : FreeList) (count index : ℕ) : FreeList :=
  freelist.setSegment index
    { freelist.segments index with length := (freelist.segments index).length - count }

/-- The entry after `physical` was returned to it. -/
def returned (segment : Segment) (physical : ℕ) : Segment :=
  if endAdjacent segment physical then { segment with length := segment.length + 1 }
  else { base := physical, length := segment.length + 1 }

def appended (freelist : FreeList) (segment : Segment) : FreeList where
  segments := Function.update freelist.segments freelist.cursor segment
  cursor := freelist.cursor + 1

def memsetBytes (bytes : Memory) (pointer : ℕ) (value : UInt8) (index : ℕ) : ℕ → Memory
  | 0 => bytes
  | count + 1 =>
      memsetBytes (store8 bytes (add pointer index) value) pointer value (index + 1) count

/-- The bytes after a frame was zeroed and made a heap page with one free node. -/
def heapPageImage (bytes : Memory) (page heapPages : ℕ) : Memory :=
  let zeroed := memsetBytes bytes page 0 0 size4KB
  let withLength := store64 zeroed (add page sizeofHeapPage) 4048
  let withNode := store64 withLength (add (add page sizeofHeapPage) 8) 0
  let withFreelist := store64 withNode page (add page sizeofHeapPage)
  let withLargest := store64 withFreelist (add page 16) 4048
  store64 withLargest (add page 24) heapPages

/-- The bytes after `count` frames were zeroed and given the header of a single block. -/
def blockImage (bytes : Memory) (page count : ℕ) : Memory :=
  let zeroed := memsetBytes bytes page 0 0 (mul size4KB count)
  let withHeader := store64 zeroed (add page sizeofHeapPage)
    (sub (sub (mul size4KB count) sizeofHeapPage) sizeofU64)
  store64 (store64 withHeader page 0) (add page 16) 0

/-- The state after `memory_allocate_frame` took a frame of entry `index`. -/
def afterFrame (hhdmOffset index : ℕ) (state : AllocatorState) : AllocatorState :=
  let page := addressPhysicalToVirtual hhdmOffset
    (topFrame (state.context.freelist.segments index) 1)
  { bytes := heapPageImage state.bytes page state.context.heapPages
    context := { freelist := shrunk state.context.freelist 1 index, heapPages := page }
    memoryLock := state.memoryLock }

/-- The state after `memory_allocate_frames` took `count` frames of entry `index`. -/
def afterFrames (hhdmOffset count index : ℕ) (state : AllocatorState) : AllocatorState :=
  { bytes := blockImage state.bytes
      (addressPhysicalToVirtual hhdmOffset
        (topFrame (state.context.freelist.segments index) count)) count
    context := { state.context with freelist := shrunk state.context.freelist count index }
    memoryLock := state.memoryLock }

def withFreelist (state : AllocatorState) (freelist : FreeList) : AllocatorState :=
  { state with context := { state.context with freelist := freelist } }

@[simp]
theorem withFreelist_freelist (state : AllocatorState) (freelist : FreeList) :
    (withFreelist state freelist).context.freelist = freelist := rfl

@[simp]
theorem withFreelist_heapPages (state : AllocatorState) (freelist : FreeList) :
    (withFreelist state freelist).context.heapPages = state.context.heapPages := rfl

@[simp]
theorem withFreelist_bytes (state : AllocatorState) (freelist : FreeList) :
    (withFreelist state freelist).bytes = state.bytes := rfl

@[simp]
theorem withFreelist_memoryLock (state : AllocatorState) (freelist : FreeList) :
    (withFreelist state freelist).memoryLock = state.memoryLock := rfl

theorem endAdjacent_iff {segment : Segment} {physical : ℕ} :
    endAdjacent segment physical = true ↔
      (segment.base + segment.length * 4096 % 2 ^ 64) % 2 ^ 64 = physical := decide_eq_true_iff

theorem startAdjacent_iff {segment : Segment} {physical : ℕ} :
    startAdjacent segment physical = true ↔ (physical + 4096) % 2 ^ 64 = segment.base :=
  decide_eq_true_iff

theorem firstFit_eq_some {freelist : FreeList} {count index : ℕ}
    (h : firstFit freelist count = some index) :
    index < scanLimit freelist ∧ count ≤ (freelist.segments index).length := by
  rw [firstFit, List.find?_range_eq_some] at h
  exact ⟨List.mem_range.mp h.2.1, by simpa using h.1⟩

theorem firstFit_eq_none_iff {freelist : FreeList} {count : ℕ} :
    firstFit freelist count = none ↔
      ∀ index < scanLimit freelist, (freelist.segments index).length < count := by
  rw [firstFit, List.find?_eq_none]
  simp

theorem freeSlot_eq_some {freelist : FreeList} {physical index : ℕ}
    (h : freeSlot freelist physical = some index) :
    index < freelist.cursor ∧ (endAdjacent (freelist.segments index) physical = true ∨
      startAdjacent (freelist.segments index) physical = true) := by
  rw [freeSlot, List.find?_range_eq_some] at h
  exact ⟨List.mem_range.mp h.2.1, by simpa using h.1⟩

/-! ## Runs -/

theorem run_memset (pointer : ℕ) (value : UInt8) (index count : ℕ) (state : AllocatorState) :
    run exec (memset pointer value index count) state =
      some ((), { state with bytes := memsetBytes state.bytes pointer value index count }) := by
  induction count generalizing index state with
  | zero => rfl
  | succ count ih =>
    rw [memset, run_perform_bind, ih]
    rfl

/-- Without wrap-around `memset` is a fill. -/
theorem memsetBytes_eq_fill {bytes : Memory} {pointer index count : ℕ} {value : UInt8}
    (h : pointer + index + count ≤ 2 ^ 64) :
    memsetBytes bytes pointer value index count = fill bytes (pointer + index) count value := by
  induction count generalizing bytes index with
  | zero => exact (fill_zero _ _ _).symm
  | succ count ih =>
    rw [memsetBytes, ih (by omega), add_of_lt (by omega), ← add_assoc, fill_store8]

/-- A loop over the entries of the table below `limit` stops at the first one that passes the
test. -/
theorem run_scan {α : Type} {loop : ℕ → ℕ → Code α} {take : ℕ → Code α} {out : Code α}
    {limit : ℕ} {test : ℕ → Bool} {state : AllocatorState} (hlimit : limit < 256)
    (hloop : ∀ fuel index, run exec (loop (fuel + 1) index) state =
      if index < limit then
        if test index then run exec (take index) state
        else run exec (loop fuel ((index + 1) % 256)) state
      else run exec out state) :
    run exec (loop 256 0) state =
      ((List.range limit).find? test).elim (run exec out state)
        fun index ↦ run exec (take index) state := by
  have hfrom (remaining : ℕ) : ∀ fuel index, index + remaining = limit → remaining < fuel →
      run exec (loop fuel index) state =
        ((List.range' index remaining).find? test).elim (run exec out state)
          fun index ↦ run exec (take index) state := by
    induction remaining with
    | zero =>
      intro fuel index hindex hfuel
      obtain ⟨fuel, rfl⟩ := Nat.exists_eq_add_of_lt hfuel
      rw [zero_add, hloop, if_neg (by omega)]
      rfl
    | succ remaining ih =>
      intro fuel index hindex hfuel
      obtain ⟨fuel, rfl⟩ : ∃ k, fuel = k + 1 := ⟨fuel - 1, by omega⟩
      rw [hloop, if_pos (by omega), List.range'_succ, List.find?_cons]
      by_cases htest : test index = true
      · simp [htest]
      · rw [if_neg htest, Nat.mod_eq_of_lt (by omega), ih fuel (index + 1) (by omega) (by omega)]
        simp [htest]
  rw [List.range_eq_range']
  exact hfrom limit 256 0 (by omega) hlimit

section Sound

variable {hhdmOffset : ℕ} {state : AllocatorState}

theorem run_memoryNthSegment (segment n : ℕ) :
    run exec (memoryNthSegment segment n) state =
      some (add (state.context.freelist.segments segment).base (mul size4KB n), state) := rfl

/-- The frame that the allocation functions compute is the top one. -/
theorem nthSegment_top {segment : Segment} {count : ℕ}
    (hend : segment.base + 4096 * segment.length ≤ 2 ^ 64) (hcount : 1 ≤ count)
    (hlength : count ≤ segment.length) :
    add segment.base (mul size4KB (segment.length - count)) = topFrame segment count := by
  rw [mul_of_lt (show 4096 * (segment.length - count) < 2 ^ 64 by omega)]
  exact add_of_lt (show segment.base + 4096 * (segment.length - count) < 2 ^ 64 by omega)

theorem run_takeFrame {index : ℕ} (hindex : index < 255)
    (hend : (state.context.freelist.segments index).base +
      4096 * (state.context.freelist.segments index).length ≤ 2 ^ 64)
    (hlength : 1 ≤ (state.context.freelist.segments index).length) :
    run exec (takeFrame hhdmOffset index) state =
      some (topFrame (state.context.freelist.segments index) 1,
        afterFrame hhdmOffset index state) := by
  have hsub : sub (state.context.freelist.segments index).length 1 =
      (state.context.freelist.segments index).length - 1 := sub_of_le hlength (by omega)
  have hfree : size4KB - sizeofHeapPage - sizeofHeapNode = 4048 := rfl
  rw [takeFrame, run_loadLength, run_bind_of_eq (run_memoryNthSegment _ _), run_loadLength,
    run_storeLength, run_bind_of_eq (run_memset _ _ _ _ _), hsub,
    nthSegment_top hend le_rfl hlength]
  simp only [storeNodeLength, storeNodeNext, storePageFreelist, storePageLargest, storePageNext,
    run_store, run_loadHeapPages, run_storeHeapPages, run_pure, hfree, afterFrame, shrunk,
    heapPageImage, MemoryContext.storeLength, if_pos hindex]

theorem run_takeFrames {count index : ℕ} (hindex : index < 255)
    (hend : (state.context.freelist.segments index).base +
      4096 * (state.context.freelist.segments index).length ≤ 2 ^ 64) (hcount : 1 ≤ count)
    (hlength : count ≤ (state.context.freelist.segments index).length) :
    run exec (takeFrames hhdmOffset count index) state =
      some (topFrame (state.context.freelist.segments index) count,
        afterFrames hhdmOffset count index state) := by
  have hsub : sub (state.context.freelist.segments index).length count =
      (state.context.freelist.segments index).length - count := sub_of_le hlength (by omega)
  rw [takeFrames, run_loadLength, run_bind_of_eq (run_memoryNthSegment _ _), run_loadLength,
    run_storeLength, run_bind_of_eq (run_memset _ _ _ _ _), hsub,
    nthSegment_top hend hcount hlength]
  simp only [storePageFreelist, storePageLargest, run_store, run_pure, afterFrames, shrunk,
    blockImage, MemoryContext.storeLength, if_pos hindex]

/-- The scan of `memory_allocate_frame` stops at the first entry with a frame. -/
theorem run_allocateFrame_search (hcursor : state.context.freelist.cursor ≤ 255) :
    run exec (memoryAllocateFrame hhdmOffset) state =
      (firstFit state.context.freelist 1).elim (some (0, state))
        fun index ↦ run exec (takeFrame hhdmOffset index) state := by
  have hlimit := scanLimit_lt state.context.freelist (by omega)
  have hscan : run exec (allocateFrameFrom hhdmOffset 256 0) state =
      (firstFit state.context.freelist 1).elim (run exec (pure 0) state)
        fun index ↦ run exec (takeFrame hhdmOffset index) state :=
    run_scan (by omega) fun fuel index ↦ by
      simp only [allocateFrameFrom, run_loadCursor, run_loadLength, run_ite, lt_scanLimit_iff,
        decide_eq_true_eq, gt_iff_lt, Nat.succ_le_iff]
  exact hscan

/-- The scan of `memory_allocate_frames` stops at the first entry with `count` frames. -/
theorem run_allocateFrames_search {count : ℕ} (hcursor : state.context.freelist.cursor ≤ 255) :
    run exec (memoryAllocateFrames hhdmOffset count) state =
      (firstFit state.context.freelist count).elim (some (0, state))
        fun index ↦ run exec (takeFrames hhdmOffset count index) state := by
  have hlimit := scanLimit_lt state.context.freelist (by omega)
  have hscan : run exec (allocateFramesFrom hhdmOffset count 256 0) state =
      (firstFit state.context.freelist count).elim (run exec (pure 0) state)
        fun index ↦ run exec (takeFrames hhdmOffset count index) state :=
    run_scan (by omega) fun fuel index ↦ by
      simp only [allocateFramesFrom, run_loadCursor, run_loadLength, run_ite, lt_scanLimit_iff,
        decide_eq_true_eq, ← not_lt, ite_not]
  exact hscan

/-- `memory_allocate_frame` takes a frame of the first entry that has one, or fails and changes
nothing. -/
theorem run_memoryAllocateFrame (hsound : Sound state.context.freelist) :
    run exec (memoryAllocateFrame hhdmOffset) state =
      some ((firstFit state.context.freelist 1).elim (0, state) fun index ↦
        (topFrame (state.context.freelist.segments index) 1,
          afterFrame hhdmOffset index state)) := by
  rw [run_allocateFrame_search hsound.cursor_le]
  cases hfit : firstFit state.context.freelist 1 with
  | none => rfl
  | some index =>
    obtain ⟨hindex, hlength⟩ := firstFit_eq_some hfit
    have hcursor := hsound.index_lt_cursor hindex
    rw [Option.elim_some, Option.elim_some,
      run_takeFrame (hcursor.trans_le hsound.cursor_le) (hsound.end_le index hcursor) hlength]

/-- `memory_allocate_frames` takes the last `count` frames of the first entry that has as many,
or fails and changes nothing. -/
theorem run_memoryAllocateFrames {count : ℕ} (hsound : Sound state.context.freelist)
    (hcount : 1 ≤ count) :
    run exec (memoryAllocateFrames hhdmOffset count) state =
      some ((firstFit state.context.freelist count).elim (0, state) fun index ↦
        (topFrame (state.context.freelist.segments index) count,
          afterFrames hhdmOffset count index state)) := by
  rw [run_allocateFrames_search hsound.cursor_le]
  cases hfit : firstFit state.context.freelist count with
  | none => rfl
  | some index =>
    obtain ⟨hindex, hlength⟩ := firstFit_eq_some hfit
    have hcursor := hsound.index_lt_cursor hindex
    rw [Option.elim_some, Option.elim_some, run_takeFrames (hcursor.trans_le hsound.cursor_le)
      (hsound.end_le index hcursor) hcount hlength]

/-- An answer other than 0 comes from an entry. -/
theorem exists_taken_of_ne_zero {fit : Option ℕ} {frame : ℕ} {after : AllocatorState}
    {taken : ℕ → ℕ × AllocatorState} (h : fit.elim (0, state) taken = (frame, after))
    (hframe : frame ≠ 0) : ∃ index, fit = some index ∧ taken index = (frame, after) := by
  cases fit with
  | none => exact absurd (congrArg Prod.fst h).symm hframe
  | some index => exact ⟨index, rfl, h⟩

theorem setSegment_setSegment (freelist : FreeList) (index : ℕ) (first second : Segment) :
    (freelist.setSegment index first).setSegment index second =
      freelist.setSegment index second := by
  simp [FreeList.setSegment]

theorem setSegment_segments_self (freelist : FreeList) (index : ℕ) (segment : Segment) :
    (freelist.setSegment index segment).segments index = segment :=
  Function.update_self ..

theorem run_appendFrame {physical : ℕ} (hcursor : state.context.freelist.cursor ≤ 255) :
    run exec (appendFrame physical) state =
      some (if state.context.freelist.cursor = 255 then (false, state) else
        (true, withFreelist state (appended state.context.freelist ⟨physical, 1⟩))) := by
  unfold appendFrame
  simp only [run_loadCursor, run_ite, run_pure]
  split
  · rfl
  · have hindex : state.context.freelist.cursor < 255 := by omega
    have hnext : (state.context.freelist.cursor + 1) % 256 =
        state.context.freelist.cursor + 1 := Nat.mod_eq_of_lt (by omega)
    simp only [run_loadCursor, run_storeBase, run_storeLength, run_storeCursor, run_pure,
      MemoryContext.storeBase, MemoryContext.storeLength, if_pos hindex,
      setSegment_setSegment, setSegment_segments_self]
    simp [withFreelist, appended, FreeList.setSegment, hnext]

/-- `memory_free_frame` once an adjacent entry is found. -/
def extendEntry (physical index : ℕ) : Code Bool := do
  let base ← perform (.loadBase index)
  let length ← perform (.loadLength index)
  if add base (mul length size4KB) = physical then do
    let length ← perform (.loadLength index)
    let _ ← perform (.storeLength index (add length 1))
    pure true
  else do
    let length ← perform (.loadLength index)
    let _ ← perform (.storeLength index (add length 1))
    let _ ← perform (.storeBase index physical)
    pure true

/-- The scan of `memory_free_frame` stops at the first adjacent entry. -/
theorem run_freeFrame_search {physical : ℕ} (hcursor : state.context.freelist.cursor ≤ 255) :
    run exec (memoryFreeFrame physical) state =
      (freeSlot state.context.freelist physical).elim (run exec (appendFrame physical) state)
        fun index ↦ run exec (extendEntry physical index) state := by
  have hscan : run exec (freeFrameFrom physical 256 0) state =
      (freeSlot state.context.freelist physical).elim (run exec (appendFrame physical) state)
        fun index ↦ run exec (extendEntry physical index) state :=
    run_scan (by omega) fun fuel index ↦ by
      simp only [freeFrameFrom, extendEntry, run_loadCursor, run_loadBase, run_loadLength, run_ite,
        run_storeLength, run_storeBase, run_pure, endAdjacent, startAdjacent, Bool.or_eq_true,
        decide_eq_true_eq]
      split_ifs <;> simp_all
  exact hscan

/-- `memory_free_frame` extends the first adjacent entry; without one it appends an entry unless
the table is full. -/
theorem run_memoryFreeFrame {physical : ℕ} (hsound : Sound state.context.freelist) :
    run exec (memoryFreeFrame physical) state =
      some ((freeSlot state.context.freelist physical).elim
        (if state.context.freelist.cursor = 255 then (false, state) else
          (true, withFreelist state (appended state.context.freelist ⟨physical, 1⟩)))
        fun index ↦ (true, withFreelist state
          (state.context.freelist.setSegment index
            (returned (state.context.freelist.segments index) physical)))) := by
  have hcursor := hsound.cursor_le
  rw [run_freeFrame_search hcursor]
  cases hslot : freeSlot state.context.freelist physical with
  | none => rw [Option.elim_none, Option.elim_none, run_appendFrame hcursor]
  | some index =>
    obtain ⟨hindex, -⟩ := freeSlot_eq_some hslot
    have hend := hsound.end_le index hindex
    have hindex' : index < 255 := by omega
    have hlength : add (state.context.freelist.segments index).length 1 =
        (state.context.freelist.segments index).length + 1 := add_of_lt (by omega)
    rw [Option.elim_some, Option.elim_some]
    simp only [extendEntry, run_loadBase, run_loadLength, run_ite, run_storeLength, run_storeBase,
      run_pure, hlength, MemoryContext.storeBase, MemoryContext.storeLength, if_pos hindex',
      setSegment_setSegment, setSegment_segments_self, returned, endAdjacent, decide_eq_true_eq]
    split <;> rfl

/-- While the table has room, `memory_free_frames` appends one entry. -/
theorem run_memoryFreeFrames {physical frameCount : ℕ}
    (hcursor : state.context.freelist.cursor < 255) :
    run exec (memoryFreeFrames physical frameCount) state =
      some (true, withFreelist state
        (appended state.context.freelist ⟨physical, frameCount⟩)) := by
  have hnext : (state.context.freelist.cursor + 1) % 256 =
      state.context.freelist.cursor + 1 := Nat.mod_eq_of_lt (by omega)
  unfold memoryFreeFrames
  simp only [run_loadCursor, run_storeBase, run_storeLength, run_storeCursor, run_pure,
    MemoryContext.storeBase, MemoryContext.storeLength, if_pos hcursor,
    setSegment_setSegment, setSegment_segments_self]
  simp [withFreelist, appended, FreeList.setSegment, hnext]

end Sound

end SideHOS.Frames
