import SideHOS.Heap.SizeWords

/-!
# Round trips of large blocks

`kmalloc` counts the frames of a large block from the requested size, and `kfree` counts them again
from the size word that `memory_allocate_frames` stored, after finding the first frame by masking
the pointer.  The two counts agree and so do the two frames, on every page boundary: one round trip
leaves the free list with the frames it had, on any table of aligned segments and with any aligned
offset.  Over a run, a `kfree` gives back what the `kmalloc` of its block took, whatever was called
in between.
-/

namespace SideHOS.Heap

open Kernel Linked Machine Machine.Word64 Machine.ByteMemory Sharing Sharing.Program Transition

/-- Every segment that is not empty is an aligned run of frames below `2 ^ 64`. -/
structure Segmented (freelist : FreeList) : Prop where
  aligned : ∀ index < freelist.cursor,
    0 < (freelist.segments index).length → (freelist.segments index).base % 4096 = 0
  end_le : ∀ index < freelist.cursor, 0 < (freelist.segments index).length →
    (freelist.segments index).base + 4096 * (freelist.segments index).length ≤ 2 ^ 64

/-- `kfree(kmalloc(size))` answers `true` and leaves the frames of the free list as they were. -/
def RoundTrips (hhdmOffset size : ℕ) (state : AllocatorState) : Prop :=
  ∃ pointer middle after, run exec (kmalloc hhdmOffset size) state = some (pointer, middle) ∧
    run exec (kfree hhdmOffset pointer) middle = some (true, after) ∧
    Frames.free after.context.freelist = Frames.free state.context.freelist

/-- `kfree` of the block answers `true` and gives back the frames that the call `t` took. -/
def GivesBack (hhdmOffset : ℕ) (t : Taken HeapConfig HeapEvent) (state : AllocatorState)
    (block : Block) : Prop :=
  ∃ after frames, run exec (kfree hhdmOffset block.pointer) state = some (true, after) ∧
    Frames.free t.before.freelist = Frames.free t.after.freelist + frames ∧
    Frames.free after.context.freelist = Frames.free state.context.freelist + frames

section RoundTrip

variable {mapping : Mapping} {state after : AllocatorState} {heap next : Layout} {block : Block}
  {hhdmOffset size pointer count index frame page : ℕ}

/-- `kmalloc` of a large block for which segment `index` is the first that is long enough. -/
theorem run_kmalloc_firstFit (hlock : state.memoryLock = 0) (hsize : 4040 < size)
    (hcursor : state.context.freelist.cursor ≤ 127)
    (hfit : Frames.firstFit state.context.freelist (frameCounts size) = some index)
    (hend : (state.context.freelist.segments index).base +
      4096 * (state.context.freelist.segments index).length ≤ 2 ^ 64)
    (hcount : 0 < frameCounts size)
    (hframe : Frames.topFrame (state.context.freelist.segments index) (frameCounts size) = frame)
    (hpage : add frame hhdmOffset = page) (hword : page + 40 < 2 ^ 64) :
    ∃ after, run exec (kmalloc hhdmOffset size) state = some (page + 40, after) ∧
      after.bytes = Frames.blockImage state.bytes page (frameCounts size) ∧
      after.context.freelist = Frames.shrunk state.context.freelist (frameCounts size) index ∧
      after.memoryLock = 0 := by
  obtain ⟨hindex, hlength⟩ := Frames.firstFit_eq_some hfit
  rw [Frames.scanLimit_of_lt (by omega)] at hindex
  have htake := @Frames.run_takeFrames hhdmOffset { state with memoryLock := 1 } (frameCounts size)
    index (by omega) hend hcount hlength
  have hsearch := @Frames.run_allocateFrames_search hhdmOffset { state with memoryLock := 1 }
    (frameCounts size) (by dsimp only; omega)
  rw [hfit, Option.elim_some, htake] at hsearch
  have hheader : add page 32 = page + 32 := add_of_lt (by omega)
  have hpointer : add (page + 32) 8 = page + 40 := add_of_lt hword
  refine ⟨{ Frames.afterFrames hhdmOffset (frameCounts size) index state with memoryLock := 0 },
    ?_, ?_, rfl, rfl⟩
  · rw [run_kmalloc_of_gt hlock hsize, run_kmallocLarge, hsearch, Option.map_some, hframe, hpage,
      hheader, hpointer]
    rfl
  · simp only [Frames.afterFrames, addressPhysicalToVirtual, hframe, hpage]

/-- `kfree` of the address behind the headers of an aligned page whose size word fills `count`
frames appends these frames to the table. -/
theorem run_kfree_frames (hlock : state.memoryLock = 0) (haligned : page % 4096 = 0)
    (hpage : page < 2 ^ 64) (hcount : 0 < count) (hlength : 4096 * count < 2 ^ 64)
    (hsize : 4040 < 4096 * count - 40)
    (hword : load64 state.bytes (page + 32) = 4096 * count - 40)
    (hcursor : state.context.freelist.cursor < 255) :
    run exec (kfree hhdmOffset (page + 40)) state =
      some (true, Frames.withFreelist state
        (Frames.appended state.context.freelist ⟨sub page hhdmOffset, count⟩)) := by
  have hvirtual : pointerFrame (page + 40) = page :=
    pointerFrame_of_lt haligned (by omega) (by omega)
  have hbase : sub (page + 40) 8 = page + 32 := sub_of_le (by omega) (by omega)
  have hcounts : frameCounts (4096 * count - 40) = count :=
    frameCounts_of_word hcount (by omega) (by omega)
  have hfree := @Frames.run_memoryFreeFrames { state with memoryLock := 1 }
    (sub page hhdmOffset) count hcursor
  rw [run_kfree_large hlock (by rwa [hbase, hword]), hbase, hword, hvirtual, hcounts, hfree]
  simp [Frames.withFreelist, hlock]

/-- A large block that a table of aligned segments grants makes a round trip, whatever the offset
maps its frames to. -/
theorem roundTrips_of_segmented (hlock : state.memoryLock = 0) (hoffset : hhdmOffset % 4096 = 0)
    (hsegmented : Segmented state.context.freelist)
    (hcursor : state.context.freelist.cursor ≤ 127) (hsize : 4040 < size)
    (hmaximum : size + 4135 < 2 ^ 64) (hindex : index < state.context.freelist.cursor)
    (hlength : (size + 4135) / 4096 ≤ (state.context.freelist.segments index).length) :
    RoundTrips hhdmOffset size state := by
  have hcounts := frameCounts_of_lt hmaximum
  obtain ⟨hcount, hroom⟩ := frameCounts_bounds hmaximum
  have hword : 4096 * frameCounts size < 2 ^ 64 := by omega
  cases hfit : Frames.firstFit state.context.freelist (frameCounts size) with
  | none =>
    have hshort := Frames.firstFit_eq_none_iff.mp hfit index
      (by rwa [Frames.scanLimit_of_lt (by omega)])
    omega
  | some first =>
    obtain ⟨hfirst, hfits⟩ := Frames.firstFit_eq_some hfit
    rw [Frames.scanLimit_of_lt (by omega)] at hfirst
    have haligned := hsegmented.aligned first hfirst (hcount.trans_le hfits)
    have hend := hsegmented.end_le first hfirst (hcount.trans_le hfits)
    obtain ⟨frame, hframe⟩ : ∃ frame,
        Frames.topFrame (state.context.freelist.segments first) (frameCounts size) = frame :=
      ⟨_, rfl⟩
    obtain ⟨page, hpage⟩ : ∃ page, add frame hhdmOffset = page := ⟨_, rfl⟩
    have hframeFacts : frame % 4096 = 0 ∧ frame < 2 ^ 64 := by
      unfold Frames.topFrame at hframe
      omega
    have hpageFacts : page % 4096 = 0 ∧ page < 2 ^ 64 := by
      unfold add at hpage
      omega
    have hphysical : sub page hhdmOffset = frame := by
      rw [← hpage]
      exact Word64.sub_add_cancel hframeFacts.2
    obtain ⟨middle, hrun, hbytes, hfreelist, hfree⟩ := run_kmalloc_firstFit hlock hsize hcursor hfit
      hend hcount hframe hpage (by omega)
    have hread : load64 middle.bytes (page + 32) = 4096 * frameCounts size - 40 := by
      rw [hbytes]
      exact load64_blockImage hcount hword (by omega)
    have hcursorMiddle : middle.context.freelist.cursor < 255 := by
      rw [hfreelist]
      exact hcursor.trans_lt (by norm_num)
    refine ⟨page + 40, middle, _, hrun,
      run_kfree_frames hfree hpageFacts.1 hpageFacts.2 hcount hword (by omega) hread hcursorMiddle,
      ?_⟩
    rw [hphysical, Frames.withFreelist_freelist, hfreelist]
    calc
      Frames.free (Frames.appended (Frames.shrunk state.context.freelist (frameCounts size) first)
          ⟨frame, frameCounts size⟩) =
          Frames.free (Frames.shrunk state.context.freelist (frameCounts size) first) +
            strided 4096 frame (frameCounts size) := Frames.frames_appended_of_lt rfl
      _ = Frames.free state.context.freelist := by
        rw [← hframe]
        exact Frames.frames_shrunk hfirst hfits

/-- A large block lies behind the headers of the first of the frames it was given. -/
theorem Given.taken (h : Given mapping state heap size pointer after next) (hsize : 4040 < size) :
    ∃ frame, pointer = frame + mapping.hhdmOffset + 40 ∧
      Frames.free state.context.freelist =
        Frames.free after.context.freelist + strided 4096 frame (frameCounts size) := by
  cases h with
  | small hle => exact absurd hsize (not_lt.mpr hle)
  | large _ _ hallocated hframe => exact ⟨_, rfl, (hallocated.free_eq hframe).symm⟩

/-- The frames of a large block go back to the table. -/
theorem Reclaimed.given (h : Reclaimed mapping state heap block after next)
    (hheap : Represents mapping state heap) (hsize : 4040 < block.size) :
    ∃ frame, block.pointer = frame + mapping.hhdmOffset + 40 ∧
      Frames.free after.context.freelist =
        Frames.free state.context.freelist + strided 4096 frame (frameCounts block.size) := by
  cases h with
  | small hpages hblock => exact absurd hsize (not_lt.mpr (Page.size_le_small hblock))
  | large hblock hbytes hheapPages hsound hframe hfree =>
    have hlarge := hheap.large block hblock
    have hpointer := hlarge.pointer_ge
    rw [mapped_strided] at hframe
    have hbase := strided_inj hlarge.count_pos hframe
    exact ⟨_, by omega, hfree⟩

/-- The call that made a large block took its frames from the table. -/
theorem Serves.took {before next : HeapConfig} {event : HeapEvent}
    (h : Serves mapping maximumSize before heap)
    (hstep : HeapStep mapping.hhdmOffset before event next)
    (hserved : Served maximumSize ⟨before, event, next⟩)
    (hmakes : Makes ⟨before, event, next⟩ block) (hsize : 4040 < block.size) :
    ∃ frame, block.pointer = frame + mapping.hhdmOffset + 40 ∧
      Frames.free before.freelist =
        Frames.free next.freelist + strided 4096 frame (frameCounts block.size) := by
  obtain ⟨hlabel, -, -⟩ := hmakes
  cases hstep with
  | kmalloc hrun =>
    obtain ⟨rfl, rfl⟩ := HeapEvent.kmalloc.inj hlabel
    obtain ⟨hpos, hle, hgranted⟩ := hserved
    have hmaximum := maximumSize_lt
    have hcount : 0 < frameCounts block.size := (frameCounts_bounds (by omega)).1
    obtain ⟨-, next, -, hgiven, -⟩ :=
      h.toTracks.kmalloc_given (Or.inl hpos) (fun _ ↦ hcount) hgranted hrun
    exact hgiven.taken hsize
  | kfree hfreed hrun => cases hlabel
  | write hlive hroom => cases hlabel
  | allocateFrame hrun => cases hlabel
  | freeFrame howned hrun => cases hlabel

/-- A `kfree` of a large block gives back the frames before its address. -/
theorem Serves.gives {config : HeapConfig} (h : Serves mapping maximumSize config heap)
    (hlive : block ∈ config.live) (hcursor : config.freelist.cursor ≤ 127)
    (hsize : 4040 < block.size) :
    ∃ after frame, run exec (kfree mapping.hhdmOffset block.pointer) config.state =
        some (true, after) ∧ block.pointer = frame + mapping.hhdmOffset + 40 ∧
      Frames.free after.context.freelist =
        Frames.free config.freelist + strided 4096 frame (frameCounts block.size) := by
  have hheap := (h.live_iff block).mp hlive
  have haligned := h.represents.pointer_not_aligned hheap (h.sizes block hlive).1
  obtain ⟨after, next, hrun, hreclaimed, -⟩ := h.represents.kfree_reclaimed h.lock_eq hheap haligned
    fun _ ↦ hcursor.trans_lt (by norm_num)
  obtain ⟨frame, hframe, hfree⟩ := hreclaimed.given h.represents hsize
  exact ⟨after, frame, hrun, hframe, hfree⟩

/-- Large blocks make round trips: at once, on any table of aligned segments and with any aligned
offset, and in every state of a run in which the block is live. -/
theorem large_blocks_round_trip {hhdmOffset : ℕ} (hoffset : hhdmOffset % 4096 = 0) :
    (∀ state : AllocatorState, state.memoryLock = 0 → Segmented state.context.freelist →
      state.context.freelist.cursor ≤ 127 → ∀ size, 4040 < size → size + 4135 < 2 ^ 64 →
      (∃ index < state.context.freelist.cursor,
        (size + 4135) / 4096 ≤ (state.context.freelist.segments index).length) →
      RoundTrips hhdmOffset size state) ∧
    ∀ start taken final, Booted hhdmOffset start → start.freelist.cursor ≤ 127 →
      Run (HeapStep hhdmOffset) start taken final →
      (∀ t ∈ taken, Served maximumSize t) →
      (∀ t ∈ taken, t.after.freelist.cursor ≤ 127) →
      ∀ t ∈ taken, ∀ block ∈ final.live, Makes t block → 4040 < block.size →
        GivesBack hhdmOffset t final.state block := by
  constructor
  · rintro state hlock hsegmented hcursor size hsize hmaximum ⟨index, hindex, hlength⟩
    exact roundTrips_of_segmented hlock hoffset hsegmented hcursor hsize hmaximum hindex hlength
  · intro start taken final hboot hentries hrun hserved hcursor t ht block hlive hmakes hsize
    obtain ⟨⟨heap, hheap⟩, hfinal⟩ :=
      serves_of_run hboot maximumSize_lt hentries hrun hserved hcursor
    obtain ⟨earlier, hearlier, hstep, hsubset⟩ := hrun.of_mem ht
    obtain ⟨⟨layout, hlayout⟩, -⟩ := serves_of_run hboot maximumSize_lt hentries hearlier
      (fun prior hprior ↦ hserved prior (hsubset prior hprior))
      fun prior hprior ↦ hcursor prior (hsubset prior hprior)
    obtain ⟨frame, hframe, htook⟩ := hlayout.took hstep (hserved t ht) hmakes hsize
    obtain ⟨after, other, hkfree, hother, hgave⟩ := hheap.gives hlive hfinal hsize
    have hsame : other = frame := by omega
    exact ⟨after, _, hkfree, htook, hsame ▸ hgave⟩

/-- A block of two frames, given and given back. -/
theorem large_blocks_round_trip_twoFrames : RoundTrips 0 5000 bootedHeap.state ∧
    ∃ pointer after, GivesBack 0
      ⟨bootedHeap, .kmalloc 5000 pointer, ⟨after, [givenBlock 5000 pointer after], 0⟩⟩ after
      (givenBlock 5000 pointer after) := by
  have hcount : frameCounts 5000 = 2 := by decide
  have hgranted : Granted 5000 bootedHeap.state :=
    granted_of_affords (by decide) ⟨0, show 0 < _ by decide, hcount.le⟩
  obtain ⟨pointer, after, hne, hcursor, hstep⟩ := booted_bootedHeap.tracks.exists_kmalloc
    (Or.inl (by norm_num)) (fun _ ↦ by decide) hgranted
  obtain ⟨hsingle, hruns⟩ := @large_blocks_round_trip 0 rfl
  constructor
  · exact hsingle bootedHeap.state rfl
      ⟨Frames.sound_twoFrames.aligned,
        fun index hindex _ ↦ Frames.sound_twoFrames.end_le index hindex⟩
      (by decide) 5000 (by norm_num) (by norm_num) ⟨0, by decide, by decide⟩
  · refine ⟨pointer, after, hruns _ _ _ booted_bootedHeap (by decide) (Run.snoc _ Run.nil hstep)
      (fun t ht ↦ ?_) (fun t ht ↦ ?_) _ (List.mem_singleton_self _) _ (List.mem_singleton_self _)
      ⟨rfl, hne, rfl⟩ (by norm_num [givenBlock])⟩
    · rw [List.mem_singleton.mp ht]
      exact ⟨by norm_num, by norm_num [maximumSize], hgranted⟩
    · rw [List.mem_singleton.mp ht]
      exact hcursor.trans_le (by decide)

end RoundTrip

end SideHOS.Heap
