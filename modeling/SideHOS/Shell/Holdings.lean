import SideHOS.Shell.History

/-!
# What the shell holds

The frames of the table, those that commands obtained and those of the blocks on `PointerStore`
are different usable frames, and every such block carries its size word (`Backed`).  Frames move
between the three by allocation and release, and between the last two when a block is pushed or
popped.
-/

namespace SideHOS.Shell

open Kernel Machine Machine.Word64 Machine.ByteMemory Sharing Sharing.Program

/-- The frames of the blocks of `malloc`, two each; a block that got no frames lies in frame 0. -/
def blockFrames (origins : List ℕ) : Multiset ℕ :=
  (origins.map fun frame ↦ if frame = 0 then 0 else strided 4096 frame 2).sum

/-- The address that `kmalloc` answers for a block in these frames. -/
def blockPointer (hhdmOffset frame : ℕ) : ℕ := add (add (add frame hhdmOffset) 32) 8

theorem blockFrames_concat (origins : List ℕ) (frame : ℕ) :
    blockFrames (origins ++ [frame]) =
      blockFrames origins + if frame = 0 then 0 else strided 4096 frame 2 := by
  rw [blockFrames, List.map_append, List.sum_append, List.map_singleton, List.sum_singleton,
    blockFrames]

theorem strided_le_blockFrames {origins : List ℕ} {frame : ℕ} (h : frame ∈ origins)
    (hframe : frame ≠ 0) : strided 4096 frame 2 ≤ blockFrames origins := by
  have hle := List.single_le_sum (fun _ _ ↦ Multiset.zero_le _) _
    (List.mem_map_of_mem (f := fun frame ↦ if frame = 0 then 0 else strided 4096 frame 2) h)
  rwa [if_neg hframe] at hle

/-- The block of frame 0 has an address as well: `kmalloc` does not look at what it was given. -/
theorem blockPointer_ne_zero {hhdmOffset frame : ℕ} (hoffset : hhdmOffset % 4096 = 0)
    (hframe : frame % 4096 = 0) : blockPointer hhdmOffset frame ≠ 0 := by
  unfold blockPointer add
  omega

theorem blockPointer_of_le {hhdmOffset frame : ℕ} (hend : frame + hhdmOffset + 8192 ≤ 2 ^ 64) :
    blockPointer hhdmOffset frame = frame + hhdmOffset + 40 := by
  unfold blockPointer add
  omega

/-- The frames of the table, the obtained ones and those of the blocks are different usable
frames; `origins` lists the frames in which the blocks lie. -/
structure Backed (mapping : Heap.Mapping) (allocator : AllocatorState) (obtained : Multiset ℕ)
    (origins : List ℕ) : Prop where
  consistent : Frames.Consistent ⟨allocator, obtained + blockFrames origins⟩
  total_le : (Frames.FrameConfig.mk allocator (obtained + blockFrames origins)).total ≤
    mapping.frames
  words : ∀ frame ∈ origins, frame ≠ 0 →
    load64 allocator.bytes (frame + mapping.hhdmOffset + 32) = 8152

section Backed

variable {mapping : Heap.Mapping} {allocator after : AllocatorState} {obtained : Multiset ℕ}
  {origins : List ℕ} {frame count : ℕ}

/-- A run of frames that is mapped. -/
theorem mapped_run {frames : Multiset ℕ} (hle : frames ≤ mapping.frames) (hcount : 0 < count)
    (hrun : strided 4096 frame count ≤ frames) :
    frame % 4096 = 0 ∧ frame ≠ 0 ∧ frame + mapping.hhdmOffset + 4096 * count ≤ 2 ^ 64 := by
  have hmem (k : ℕ) (hk : k < count) : frame + 4096 * k ∈ mapping.frames :=
    Multiset.mem_of_le (hrun.trans hle) (mem_strided.mpr ⟨k, hk, rfl⟩)
  have hfirst : frame + 4096 * 0 ∈ mapping.frames := hmem 0 hcount
  have haligned := mapping.frame_aligned _ hfirst
  have hne := mapping.frame_ne_zero _ hfirst
  have hend := mapping.end_le _ (hmem (count - 1) (by omega))
  omega

theorem Backed.free_le (h : Backed mapping allocator obtained origins) :
    Frames.free allocator.context.freelist ≤ mapping.frames :=
  (Multiset.le_add_right _ _).trans h.total_le

theorem Backed.held_le (h : Backed mapping allocator obtained origins) :
    obtained + blockFrames origins ≤ mapping.frames :=
  (Multiset.le_add_left _ _).trans h.total_le

/-- The frames of a block are mapped. -/
theorem Backed.block_mapped (h : Backed mapping allocator obtained origins)
    (hframe : frame ∈ origins) (hne : frame ≠ 0) :
    frame % 4096 = 0 ∧ frame + mapping.hhdmOffset + 8192 ≤ 2 ^ 64 := by
  have hmapped := mapped_run h.held_le two_pos
    ((strided_le_blockFrames hframe hne).trans (Multiset.le_add_left _ obtained))
  exact ⟨hmapped.1, hmapped.2.2⟩

/-- The lock does not matter. -/
theorem Backed.withLock (h : Backed mapping allocator obtained origins) (lock : ℕ) :
    Backed mapping { allocator with memoryLock := lock } obtained origins :=
  ⟨⟨h.consistent.sound, h.consistent.nodup, h.consistent.real⟩, h.total_le, h.words⟩

/-- What is written into frames of the table does not touch the size words of blocks. -/
theorem Backed.word_kept (h : Backed mapping allocator obtained origins) (hcount : 0 < count)
    (hfree : strided 4096 frame count ≤ Frames.free allocator.context.freelist) {bytes : Memory}
    (houtside : ∀ x, ¬ Extent.Holds ⟨frame + mapping.hhdmOffset, 4096 * count⟩ x →
      bytes x = allocator.bytes x) :
    ∀ block ∈ origins, block ≠ 0 → load64 bytes (block + mapping.hhdmOffset + 32) = 8152 := by
  intro block hblock hne
  rw [← h.words block hblock hne]
  have hblocks : strided 4096 block 2 ≤ obtained + blockFrames origins :=
    (strided_le_blockFrames hblock hne).trans (Multiset.le_add_left _ _)
  obtain ⟨haligned, -, hend⟩ := mapped_run h.free_le hcount hfree
  obtain ⟨hblockAligned, hblockEnd⟩ := h.block_mapped hblock hne
  have hnot : block ∉ strided 4096 frame count := fun hmem ↦
    Multiset.disjoint_left.mp h.consistent.disjoint (Multiset.mem_of_le hfree hmem)
      (Multiset.mem_of_le hblocks (mem_strided.mpr ⟨0, two_pos, rfl⟩))
  have hapart : block + 4096 ≤ frame ∨ frame + 4096 * count ≤ block := by
    by_contra hnear
    apply hnot
    exact mem_strided.mpr ⟨(block - frame) / 4096, by omega, by omega⟩
  refine load64_congr fun x hlow hhigh ↦ houtside x ?_
  simp only [Extent.Holds, Extent.stop]
  omega

/-- Frames that an allocation took come from the table and are mapped. -/
theorem Backed.taken (h : Backed mapping allocator obtained origins) (hcount : 0 < count)
    (hallocated : Frames.Allocated allocator count frame after) (hframe : frame ≠ 0) :
    strided 4096 frame count ≤ Frames.free allocator.context.freelist ∧
      frame + mapping.hhdmOffset + 4096 * count ≤ 2 ^ 64 := by
  have hle : strided 4096 frame count ≤ Frames.free allocator.context.freelist := by
    rw [← hallocated.free_eq hframe]
    exact Multiset.le_add_left _ _
  exact ⟨hle, (mapped_run h.free_le hcount hle).2.2⟩

/-- An allocation that writes into its own frames only moves them from the table to the obtained
ones. -/
theorem Backed.allocated (h : Backed mapping allocator obtained origins) (hcount : 0 < count)
    (hallocated : Frames.Allocated allocator count frame after)
    (houtside : frame ≠ 0 → ∀ x, ¬ Extent.Holds ⟨frame + mapping.hhdmOffset, 4096 * count⟩ x →
      after.bytes x = allocator.bytes x) :
    Backed mapping after (obtained + if frame = 0 then 0 else strided 4096 frame count)
      origins := by
  obtain ⟨hconsistent, htotal⟩ := Frames.conserves_of_allocated h.consistent hallocated
  rw [add_right_comm] at hconsistent htotal
  refine ⟨hconsistent, htotal.le.trans h.total_le, ?_⟩
  by_cases hframe : frame = 0
  · rw [hallocated.unchanged hframe]
    exact h.words
  · exact h.word_kept hcount (h.taken hcount hallocated hframe).1 (houtside hframe)

theorem Backed.allocateFrame (h : Backed mapping allocator obtained origins)
    (hrun : run exec (memoryAllocateFrame mapping.hhdmOffset) allocator = some (frame, after)) :
    Backed mapping after (obtained + if frame = 0 then 0 else strided 4096 frame 1) origins := by
  obtain ⟨frame', after', hspec, hallocated⟩ :=
    Frames.memoryAllocateFrame_spec mapping.hhdmOffset h.consistent.sound
  obtain ⟨rfl, rfl⟩ := Prod.mk.inj (Option.some.inj (hspec.symm.trans hrun))
  refine h.allocated one_pos hallocated fun hframe x hx ↦ ?_
  have hend := (h.taken one_pos hallocated hframe).2
  have hbytes := (Heap.run_newFrame h.consistent.sound hrun hframe).1
  rw [hbytes, add_of_lt (by omega)]
  exact Heap.heapPageImage_of_outside (by omega) hx

theorem Backed.allocateFrames (h : Backed mapping allocator obtained origins) (hcount : 1 ≤ count)
    (hrun : run exec (memoryAllocateFrames mapping.hhdmOffset count) allocator =
      some (frame, after)) :
    Backed mapping after (obtained + if frame = 0 then 0 else strided 4096 frame count) origins ∧
      (frame ≠ 0 → load64 after.bytes (frame + mapping.hhdmOffset + 32) = 4096 * count - 40) := by
  obtain ⟨frame', after', hspec, hallocated⟩ :=
    Frames.memoryAllocateFrames_spec mapping.hhdmOffset h.consistent.sound hcount
  obtain ⟨rfl, rfl⟩ := Prod.mk.inj (Option.some.inj (hspec.symm.trans hrun))
  have himage (hframe : frame' ≠ 0) : frame' + mapping.hhdmOffset + 4096 * count ≤ 2 ^ 64 ∧
      after'.bytes =
        Frames.blockImage allocator.bytes (frame' + mapping.hhdmOffset) count := by
    have hend := (h.taken hcount hallocated hframe).2
    have hbytes := (Heap.run_newFrames h.consistent.sound hcount hrun hframe).1
    rw [add_of_lt (by omega)] at hbytes
    exact ⟨hend, hbytes⟩
  refine ⟨h.allocated hcount hallocated fun hframe x hx ↦ ?_, fun hframe ↦ ?_⟩
  · obtain ⟨hend, hbytes⟩ := himage hframe
    rw [hbytes]
    exact Heap.blockImage_of_outside hcount hend (by omega) hx
  · obtain ⟨hend, hbytes⟩ := himage hframe
    rw [hbytes]
    exact Heap.load64_blockImage hcount (by omega) (by omega)

/-- Frames that nobody accounts for any longer. -/
theorem Backed.forget {more : Multiset ℕ} (h : Backed mapping allocator (obtained + more) origins) :
    Backed mapping allocator obtained origins := by
  have hle : obtained + blockFrames origins ≤ obtained + more + blockFrames origins :=
    add_le_add_left (Multiset.le_add_right _ _) _
  have htotal : (Frames.FrameConfig.mk allocator (obtained + blockFrames origins)).total ≤
      (Frames.FrameConfig.mk allocator (obtained + more + blockFrames origins)).total :=
    add_le_add_right hle _
  refine ⟨h.consistent.of_total h.consistent.sound htotal ?_, htotal.trans h.total_le, h.words⟩
  exact fun frame hframe ↦ h.consistent.real frame (Multiset.mem_of_le hle hframe)

/-- Two obtained frames become a block. -/
theorem Backed.hold
    (h : Backed mapping allocator (obtained + if frame = 0 then 0 else strided 4096 frame 2)
      origins)
    (hword : frame ≠ 0 → load64 allocator.bytes (frame + mapping.hhdmOffset + 32) = 8152) :
    Backed mapping allocator obtained (origins ++ [frame]) := by
  have heq : obtained + blockFrames (origins ++ [frame]) =
      obtained + (if frame = 0 then 0 else strided 4096 frame 2) + blockFrames origins :=
    calc obtained + blockFrames (origins ++ [frame])
        = obtained + (blockFrames origins + if frame = 0 then 0 else strided 4096 frame 2) := by
          rw [blockFrames_concat]
      _ = obtained + blockFrames origins + (if frame = 0 then 0 else strided 4096 frame 2) :=
          (add_assoc _ _ _).symm
      _ = obtained + (if frame = 0 then 0 else strided 4096 frame 2) + blockFrames origins :=
          add_right_comm _ _ _
  refine ⟨heq ▸ h.consistent, heq ▸ h.total_le, ?_⟩
  rw [List.forall_mem_append, List.forall_mem_singleton]
  exact ⟨h.words, hword⟩

/-- The frames of the last block are obtained frames again. -/
theorem Backed.unhold (h : Backed mapping allocator obtained (origins ++ [frame]))
    (hframe : frame ≠ 0) : Backed mapping allocator (obtained + strided 4096 frame 2) origins := by
  have heq : obtained + strided 4096 frame 2 + blockFrames origins =
      obtained + blockFrames (origins ++ [frame]) := by
    rw [blockFrames_concat, if_neg hframe, add_right_comm, add_assoc]
  exact ⟨heq ▸ h.consistent, heq ▸ h.total_le, fun block hblock ↦
    h.words block (List.mem_append_left _ hblock)⟩

/-- The last block is not accounted for any longer. -/
theorem Backed.drop (h : Backed mapping allocator obtained (origins ++ [frame])) :
    Backed mapping allocator obtained origins := by
  by_cases hframe : frame = 0
  · have heq : blockFrames (origins ++ [frame]) = blockFrames origins := by
      rw [blockFrames_concat, if_pos hframe, add_zero]
    exact ⟨heq ▸ h.consistent, heq ▸ h.total_le, fun block hblock ↦
      h.words block (List.mem_append_left _ hblock)⟩
  · exact (h.unhold hframe).forget

/-- A call that releases obtained frames and writes no bytes. -/
theorem Backed.freed (h : Backed mapping allocator obtained origins) {event : Frames.FrameEvent}
    {freed : Multiset ℕ} (hle : freed ≤ obtained)
    (hstep : Frames.FrameStep mapping.hhdmOffset ⟨allocator, obtained + blockFrames origins⟩ event
      ⟨after, obtained + blockFrames origins - freed⟩)
    (hbytes : after.bytes = allocator.bytes) :
    Backed mapping after (obtained - freed) origins := by
  obtain ⟨hconsistent, htotal⟩ := hstep.shrinks h.consistent
  rw [← tsub_add_eq_add_tsub hle] at hconsistent htotal
  refine ⟨hconsistent, htotal.trans h.total_le, ?_⟩
  rw [hbytes]
  exact h.words

end Backed

end SideHOS.Shell
