import SideHOS.Frames.Change

/-!
# What a call of the frame allocator does

Each call of the frame allocator on a sound table, in terms of the frames it describes.  The
callers of the allocator use these specifications and never look at the table's entries.
-/

namespace SideHOS.Frames

open Kernel Machine Machine.Word64 Machine.ByteMemory Sharing Sharing.Program

/-- What an allocation of `count` frames that answers `frame` has done. -/
structure Allocated (before : AllocatorState) (count frame : ℕ) (after : AllocatorState) :
    Prop where
  fails_iff : frame = 0 ↔ ∀ index < scanLimit before.context.freelist,
    (before.context.freelist.segments index).length < count
  unchanged : frame = 0 → after = before
  free_eq : frame ≠ 0 →
    free after.context.freelist + strided 4096 frame count = free before.context.freelist
  scanned_eq : frame ≠ 0 →
    scanned after.context.freelist + strided 4096 frame count = scanned before.context.freelist
  cursor_eq : after.context.freelist.cursor = before.context.freelist.cursor
  lock_eq : after.memoryLock = before.memoryLock
  sound : Sound after.context.freelist

section Spec

variable {count physical : ℕ} {state : AllocatorState}

theorem Allocated.ne_zero_iff {before after : AllocatorState} {frame : ℕ}
    (h : Allocated before count frame after) :
    frame ≠ 0 ↔ Affords before.context.freelist count := by
  rw [ne_eq, h.fails_iff, Affords]
  push Not
  rfl

theorem topFrame_ne_zero {freelist : FreeList} {index : ℕ} (hsound : Sound freelist)
    (hindex : index < freelist.cursor) (hcount : 1 ≤ count)
    (hlength : count ≤ (freelist.segments index).length) :
    topFrame (freelist.segments index) count ≠ 0 := by
  intro hzero
  refine hsound.zero_not_mem (mem_frames.mpr ⟨index, hindex, mem_segmentFrames.mpr ?_⟩)
  exact ⟨(freelist.segments index).length - count, by omega, hzero⟩

/-- The common content of both allocation routines. -/
theorem allocated_of_firstFit (taken : ℕ → AllocatorState) (hsound : Sound state.context.freelist)
    (hcount : 1 ≤ count)
    (htaken : ∀ index, (taken index).context.freelist = shrunk state.context.freelist count index ∧
      (taken index).memoryLock = state.memoryLock)
    {result : ℕ × AllocatorState}
    (hresult : (firstFit state.context.freelist count).elim (0, state) (fun index ↦
      (topFrame (state.context.freelist.segments index) count, taken index)) = result) :
    Allocated state count result.1 result.2 := by
  subst hresult
  cases hfit : firstFit state.context.freelist count with
  | none =>
    exact {
      fails_iff := ⟨fun _ ↦ firstFit_eq_none_iff.mp hfit, fun _ ↦ rfl⟩
      unchanged := fun _ ↦ rfl
      free_eq := fun h ↦ absurd rfl h
      scanned_eq := fun h ↦ absurd rfl h
      cursor_eq := rfl
      lock_eq := rfl
      sound := hsound }
  | some index =>
    obtain ⟨hindex, hlength⟩ := firstFit_eq_some hfit
    have hcursor := hsound.cursor_le
    have hlimit := scanLimit_le state.context.freelist (by omega)
    have hne := topFrame_ne_zero hsound (by omega) hcount hlength
    obtain ⟨hfreelist, hlock⟩ := htaken index
    have hcursor' : (taken index).context.freelist.cursor = state.context.freelist.cursor := by
      rw [hfreelist]
      rfl
    have hlimit' : scanLimit (taken index).context.freelist = scanLimit state.context.freelist := by
      unfold scanLimit
      rw [hcursor']
    refine {
      fails_iff := ⟨fun h ↦ absurd h hne, fun h ↦ absurd hlength (not_le.mpr (h index hindex))⟩
      unchanged := fun h ↦ absurd h hne
      free_eq := fun _ ↦ ?_
      scanned_eq := fun _ ↦ ?_
      cursor_eq := hcursor'
      lock_eq := hlock
      sound := ?_ }
    · unfold free
      rw [Option.elim_some, hcursor', hfreelist]
      exact frames_shrunk (by omega) hlength
    · unfold scanned
      rw [Option.elim_some, hlimit', hfreelist]
      exact frames_shrunk hindex hlength
    · rw [Option.elim_some, hfreelist]
      exact sound_shrunk hsound (by omega) hlength

theorem memoryAllocateFrame_spec (hhdmOffset : ℕ) (hsound : Sound state.context.freelist) :
    ∃ frame after, run exec (memoryAllocateFrame hhdmOffset) state = some (frame, after) ∧
      Allocated state 1 frame after :=
  ⟨_, _, run_memoryAllocateFrame hsound,
    allocated_of_firstFit (afterFrame hhdmOffset · state) hsound le_rfl (fun _ ↦ ⟨rfl, rfl⟩) rfl⟩

theorem memoryAllocateFrames_spec (hhdmOffset : ℕ) (hsound : Sound state.context.freelist)
    (hcount : 1 ≤ count) :
    ∃ frame after, run exec (memoryAllocateFrames hhdmOffset count) state = some (frame, after) ∧
      Allocated state count frame after :=
  ⟨_, _, run_memoryAllocateFrames hsound hcount,
    allocated_of_firstFit (afterFrames hhdmOffset count · state) hsound hcount
      (fun _ ↦ ⟨rfl, rfl⟩) rfl⟩

/-- What a successful free of `freed` has done. -/
structure Freed (before : AllocatorState) (freed : Multiset ℕ) (after : AllocatorState) :
    Prop where
  free_eq : free after.context.freelist = free before.context.freelist + freed
  others : after = withFreelist before after.context.freelist
  sound : Sound after.context.freelist

/-- An aligned run of frames, frame 0 not among them, of which the table describes none. -/
structure Releasable (freelist : FreeList) (physical count : ℕ) : Prop where
  aligned : physical % 4096 = 0
  base_lt : physical < 2 ^ 64
  end_le : physical + 4096 * count ≤ 2 ^ 64
  zero_not_mem : 0 ∉ strided 4096 physical count
  not_free : Disjoint (free freelist) (strided 4096 physical count)

theorem sound_appended_of_releasable {freelist : FreeList} (hsound : Sound freelist)
    (hcursor : freelist.cursor < 255) (hreleasable : Releasable freelist physical count) :
    Sound (appended freelist ⟨physical, count⟩) ∧
      free (appended freelist ⟨physical, count⟩) =
        free freelist + strided 4096 physical count :=
  sound_appended hsound hcursor (fun _ ↦ hreleasable.aligned) hreleasable.base_lt
    hreleasable.end_le hreleasable.not_free hreleasable.zero_not_mem

/-- `memory_free_frame` gives a frame back to the table, unless every entry is in use and none is
adjacent. -/
theorem memoryFreeFrame_spec (hsound : Sound state.context.freelist)
    (hreleasable : Releasable state.context.freelist physical 1) :
    ∃ ok after, run exec (memoryFreeFrame physical) state = some (ok, after) ∧
      (ok = false ↔ state.context.freelist.cursor = 255 ∧
        freeSlot state.context.freelist physical = none) ∧
      (ok = false → after = state) ∧
      (ok = true → Freed state {physical} after ∧
        after.context.freelist.cursor = state.context.freelist.cursor +
          if freeSlot state.context.freelist physical = none then 1 else 0) := by
  have hcursor := hsound.cursor_le
  have hend := hreleasable.end_le
  have hzero := hreleasable.zero_not_mem
  have hnew := hreleasable.not_free
  simp only [strided_one, Multiset.mem_singleton, Multiset.disjoint_singleton] at hzero hnew
  refine ⟨_, _, run_memoryFreeFrame hsound, ?_⟩
  cases hslot : freeSlot state.context.freelist physical with
  | some index =>
    obtain ⟨hindex, hadjacent⟩ := freeSlot_eq_some hslot
    obtain ⟨hsound', hframes⟩ := sound_returned hsound hindex hadjacent hreleasable.aligned
      (Ne.symm hzero) hend hnew
    refine ⟨by simp, by simp, fun _ ↦ ⟨⟨hframes _ hindex, rfl, hsound'⟩, rfl⟩⟩
  | none =>
    by_cases hfull : state.context.freelist.cursor = 255
    · simp [hfull]
    · obtain ⟨hsound', hframes⟩ := sound_appended_of_releasable hsound (by omega) hreleasable
      rw [strided_one] at hframes
      simp only [if_neg hfull]
      exact ⟨by simp [hfull], by simp, fun _ ↦ ⟨⟨hframes, rfl, hsound'⟩, rfl⟩⟩

/-- `memory_free_frames` appends the run of frames while the table has room. -/
theorem memoryFreeFrames_spec (hsound : Sound state.context.freelist)
    (hcursor : state.context.freelist.cursor < 255)
    (hreleasable : Releasable state.context.freelist physical count) :
    ∃ after, run exec (memoryFreeFrames physical count) state = some (true, after) ∧
      Freed state (strided 4096 physical count) after ∧
      after.context.freelist.cursor = state.context.freelist.cursor + 1 := by
  obtain ⟨hsound', hframes⟩ := sound_appended_of_releasable hsound hcursor hreleasable
  exact ⟨_, run_memoryFreeFrames hcursor, ⟨hframes, rfl, hsound'⟩, rfl⟩

/-- With all 255 entries in use, `memory_free_frames` stores past the table: the base overwrites
the cursor and the count `heap_pages`. -/
theorem run_memoryFreeFrames_full (hcursor : state.context.freelist.cursor = 255)
    (haligned : physical % 4096 = 0) :
    run exec (memoryFreeFrames physical count) state =
      some (true, { state with
        context :=
          { freelist := { state.context.freelist with cursor := 1 }, heapPages := count } }) := by
  have hbyte : physical % 256 = 0 := by omega
  unfold memoryFreeFrames
  simp only [run_loadCursor, run_storeBase, run_storeLength, run_storeCursor, run_pure, hcursor,
    MemoryContext.storeBase, MemoryContext.storeLength, lt_irrefl, if_false, hbyte]

end Spec

end SideHOS.Frames
