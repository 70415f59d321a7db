import SideHOS.Heap.Exhaustion

/-!
# Frame ownership across the two allocation layers

Every usable frame should belong to the table, to one heap page, to one large block or to one
direct caller of `memory_allocate_frame`.  A direct call that finds a frame breaks this at once,
because the frame also becomes a heap page.  Without such calls ownership stays exclusive in every
run, also when memory runs out.
-/

namespace SideHOS.Heap

open Kernel Linked Machine Machine.Word64 Machine.ByteMemory Sharing Sharing.Program Transition

/-- Every frame, once for each of its owners: the table, the pages of the heap, the live large
blocks and the direct callers. -/
def owners (hhdmOffset : ℕ) (config : HeapConfig) (pages : List ℕ) : Multiset ℕ :=
  mapped hhdmOffset (Frames.free config.freelist) + ↑pages +
    ((config.live.filter fun block ↦ 4040 < block.size).map Block.frames).sum +
    mapped hhdmOffset config.owned

/-- The page list ends, and every usable frame has exactly one owner. -/
def ExclusivelyOwned (hhdmOffset : ℕ) (usable : Multiset ℕ) (config : HeapConfig) : Prop :=
  ∃ pages, Chain 0 (pageNext config.state.bytes) config.state.context.heapPages pages ∧
    ∀ frame ∈ usable, (owners hhdmOffset config pages).count (frame + hhdmOffset) = 1

/-- The calls that keep ownership exclusive.  A direct `memory_allocate_frame` finds no frame; a
`kmalloc` gets its frames, or is small and finds nothing in frame 0; a `kfree` finds the block's
page from its pointer, and room in the table for the frames of a large block. -/
def KeepsOwners (hhdmOffset : ℕ) (t : Taken HeapConfig HeapEvent) : Prop :=
  match t.label with
  | .kmalloc size _ => (4040 < size → 0 < frameCounts size) ∧
      (Granted size t.before.state ∨
        size ≤ 4040 ∧ NoFit hhdmOffset size t.before.state.bytes)
  | .kfree block _ => block.pointer % 4096 ≠ 0 ∧
      (4040 < block.size → t.before.freelist.cursor < 255)
  | .write _ _ _ => True
  | .allocateFrame _ => Frames.scanned t.before.freelist = 0
  | .freeFrame _ _ => True

section Ownership

variable {mapping : Mapping} {config : HeapConfig} {heap : Layout} {size pointer frame : ℕ}
  {after : AllocatorState}

theorem Tracks.exclusivelyOwned (h : Tracks mapping config heap) :
    ExclusivelyOwned mapping.hhdmOffset mapping.frames config := by
  have hfinset : (config.live.filter fun block ↦ 4040 < block.size).toFinset = heap.large := by
    ext block
    rw [List.mem_toFinset, List.mem_filter, decide_eq_true_eq, h.live_iff,
      h.represents.mem_large_iff]
  have hlarge : ((config.live.filter fun block ↦ 4040 < block.size).map Block.frames).sum =
      ∑ block ∈ heap.large, block.frames := by
    rw [← List.sum_toFinset _ (h.nodup.filter _), hfinset]
  have howners : owners mapping.hhdmOffset config (heap.pages.map Page.base) =
      mapped mapping.hhdmOffset mapping.frames := by
    have hnone : mapped mapping.hhdmOffset 0 = 0 := rfl
    rw [← h.represents.frames_eq, owners, hlarge, h.owned_eq, hnone, Layout.frames]
    abel
  refine ⟨_, h.represents.chain, fun frame hframe ↦ ?_⟩
  rw [howners]
  exact Multiset.count_eq_one_of_mem mapping.nodup_mapped (mem_mapped.mpr ⟨frame, hframe, rfl⟩)

/-- A small request that is refused leaves the state as it is, if frame 0 has no fit. -/
theorem Represents.kmalloc_refused {state : AllocatorState} (h : Represents mapping state heap)
    (hlock : state.memoryLock = 0) (hoffset : mapping.hhdmOffset < 2 ^ 64) (hsize : size ≤ 4040)
    (hrefused : ¬ Granted size state)
    (hfit : NoFit mapping.hhdmOffset size state.bytes) :
    run exec (Kernel.kmalloc mapping.hhdmOffset size) state = some (0, state) := by
  rw [Granted, if_neg (not_lt.mpr hsize), not_or] at hrefused
  have hlocked := h.withLock 1
  have hfree : { state with memoryLock := 0 } = state := by
    rw [← hlock]
  have hnone : (heap.pages.find? fun page ↦ decide (size + 8 ≤ page.largest)) = none := by
    rw [List.find?_eq_none]
    intro page hpage hlargest
    exact hrefused.1 (h.hasPage_iff.mpr ⟨page, hpage, of_decide_eq_true hlargest⟩)
  have hwalkLocked : run exec (pageWalk (size + 8) walkFuel state.context.heapPages)
      { state with memoryLock := 1 } = some (0, { state with memoryLock := 1 }) := by
    rw [hlocked.run_pageWalk, hnone]
    rfl
  have hempty : Frames.firstFit state.context.freelist 1 = none := by
    rw [Frames.firstFit_eq_none_iff]
    intro index hindex
    by_contra hlength
    exact hrefused.2 ⟨index, hindex, not_lt.mp hlength⟩
  have hframe : run exec (memoryAllocateFrame mapping.hhdmOffset) { state with memoryLock := 1 } =
      some (0, { state with memoryLock := 1 }) := by
    rw [Frames.run_allocateFrame_search hlocked.sound.cursor_le, hempty]
    rfl
  have hnull : run exec (Kernel.kmallocIn size (size + 8) mapping.hhdmOffset)
      { state with memoryLock := 1 } = some (0, { state with memoryLock := 0 }) :=
    run_kmallocIn_null hfit
  rw [run_kmalloc_of_le hlock hsize, run_kmallocSmall_refused hoffset hsize hwalkLocked hframe,
    hnull, hfree]

/-- A direct `memory_allocate_frame` without a scanned frame changes nothing. -/
theorem run_memoryAllocateFrame_empty {hhdmOffset : ℕ} {state : AllocatorState}
    (hsound : Frames.Sound state.context.freelist)
    (hempty : Frames.scanned state.context.freelist = 0) :
    run exec (memoryAllocateFrame hhdmOffset) state = some (0, state) := by
  have hlengths : ∀ index < Frames.scanLimit state.context.freelist,
      (state.context.freelist.segments index).length < 1 := by
    intro index hindex
    rw [Nat.lt_one_iff, ← Frames.segmentFrames_eq_zero_iff, ← Multiset.le_zero, ← hempty]
    exact Finset.single_le_sum (fun _ _ ↦ Multiset.zero_le _) (Finset.mem_range.mpr hindex)
  rw [Frames.run_allocateFrame_search hsound.cursor_le, Frames.firstFit_eq_none_iff.mpr hlengths]
  rfl

/-- Each such call keeps the configuration tracked. -/
theorem Tracks.step {event : HeapEvent} {next : HeapConfig} (h : Tracks mapping config heap)
    (hend : mapping.EndsBefore) (hoffset : mapping.hhdmOffset < 2 ^ 64)
    (hstep : HeapStep mapping.hhdmOffset config event next)
    (hkeeps : KeepsOwners mapping.hhdmOffset ⟨config, event, next⟩) :
    ∃ layout, Tracks mapping next layout := by
  cases hstep with
  | @kmalloc size pointer after hrun =>
    obtain ⟨hcount, hgranted⟩ := hkeeps
    by_cases hserved : Granted size config.state
    · obtain ⟨hne, layout, -, hlayout⟩ := h.kmalloc (Or.inr (Or.inl hend)) hcount hserved hrun
      rw [if_neg hne]
      exact ⟨layout, hlayout⟩
    · obtain ⟨hsize, hfit⟩ := hgranted.resolve_left hserved
      rw [h.represents.kmalloc_refused h.lock_eq hoffset hsize hserved hfit] at hrun
      obtain ⟨rfl, rfl⟩ := Prod.mk.inj (Option.some.inj hrun)
      exact ⟨heap, h⟩
  | kfree hlive hrun =>
    obtain ⟨-, layout, -, hlayout⟩ := h.kfree hlive hkeeps.1 hkeeps.2 hrun
    exact ⟨layout, hlayout⟩
  | write hlive hroom => exact ⟨heap, h.write hlive hroom⟩
  | allocateFrame hrun =>
    rw [run_memoryAllocateFrame_empty h.represents.sound hkeeps] at hrun
    obtain ⟨rfl, rfl⟩ := Prod.mk.inj (Option.some.inj hrun)
    rw [if_pos rfl, add_zero]
    exact ⟨heap, h⟩
  | freeFrame howned hrun =>
    rw [h.owned_eq] at howned
    exact absurd howned (Multiset.notMem_zero _)

/-- In every state of a run of such calls, every usable frame has exactly one owner. -/
theorem frames_exclusively_owned {hhdmOffset : ℕ} {start final : HeapConfig}
    {taken : List (Taken HeapConfig HeapEvent)} (hboot : Booted hhdmOffset start)
    (hend : ∀ frame ∈ Frames.free start.freelist, frame + hhdmOffset + 4096 < 2 ^ 64)
    (hoffset : hhdmOffset < 2 ^ 64) (hrun : Run (HeapStep hhdmOffset) start taken final)
    (hkeeps : ∀ t ∈ taken, KeepsOwners hhdmOffset t) :
    ExclusivelyOwned hhdmOffset (Frames.free start.freelist) final := by
  obtain ⟨heap, hheap⟩ := hrun.invariant (fun config ↦ ∃ heap, Tracks hboot.mapping config heap)
    (KeepsOwners hhdmOffset) ⟨_, hboot.tracks⟩
    (fun before event after hbefore hstep hcondition ↦ by
      obtain ⟨heap, hheap⟩ := hbefore
      exact hheap.step hend hoffset hstep hcondition) hkeeps
  exact hheap.exclusivelyOwned

theorem frames_exclusively_owned_reused : ∃ taken final, Reused taken final ∧
    ExclusivelyOwned 0 (Frames.free bootedHeap.freelist) final := by
  obtain ⟨taken, final, hreused⟩ := exists_reused
  refine ⟨taken, final, hreused, frames_exclusively_owned booted_bootedHeap (by decide)
    (by norm_num) hreused.run ?_⟩
  rintro ⟨before, event, after⟩ ht
  have hserved := hreused.served _ ht
  cases event with
  | kmalloc size pointer =>
    have hsize : size ≤ 64 := hserved.2.1
    exact ⟨fun hlarge ↦ absurd hlarge (by omega), Or.inl hserved.2.2⟩
  | kfree block ok =>
    obtain ⟨haligned, hsize⟩ := hreused.aligned _ ht block ok rfl
    exact ⟨haligned, fun hlarge ↦ absurd hlarge (by omega)⟩
  | write => trivial
  | allocateFrame => exact hserved.elim
  | freeFrame => exact hserved.elim

/-- One direct `memory_allocate_frame` gives a frame two owners. -/
theorem frame_owned_twice : ∃ taken final, Run (HeapStep 0) bootedHeap taken final ∧
    ¬ ExclusivelyOwned 0 (Frames.free bootedHeap.freelist) final := by
  obtain ⟨frame, after, hrun, hallocated⟩ :=
    Frames.memoryAllocateFrame_spec 0 Frames.sound_twoFrames
  have hframe : frame ≠ 0 := fun hzero ↦
    absurd (hallocated.fails_iff.mp hzero 0 (by decide)) (by decide)
  have hstep : HeapStep 0 bootedHeap (.allocateFrame frame)
      ⟨after, [], 0 + if frame = 0 then 0 else {frame}⟩ := HeapStep.allocateFrame hrun
  rw [if_neg hframe, zero_add] at hstep
  refine ⟨_, _, Run.snoc _ Run.nil hstep, ?_⟩
  rintro ⟨pages, hpages, howners⟩
  obtain ⟨-, -, hnext⟩ := booted_bootedHeap.tracks.represents.newPage hrun hframe
  obtain rfl := Chain.unique hpages hnext.chain
  have hmem : frame ∈ Frames.free bootedHeap.freelist := by
    rw [show Frames.free bootedHeap.freelist = _ from (hallocated.free_eq hframe).symm,
      strided_one]
    exact Multiset.mem_add.mpr (Or.inr (Multiset.mem_singleton_self _))
  have hcount : (owners 0 ⟨after, [], {frame}⟩ [frame]).count frame = 1 := howners frame hmem
  simp [owners, mapped] at hcount

end Ownership

end SideHOS.Heap
