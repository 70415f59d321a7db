import SideHOS.Heap.Ownership

/-!
# Requests of every size

`kmalloc` counts the frames of a large request modulo `2 ^ 64` and does not look whether
`memory_allocate_frames` found them.  This module separates, in every reachable state, the requests
that are answered by a block of the requested size from those where the count wraps around or the
answer lies in no frame at all.
-/

namespace SideHOS.Heap

open Kernel Linked Machine Machine.Word64 Machine.ByteMemory Sharing Sharing.Program Transition

def Removed (before after : AllocatorState) (frame : ℕ) : Prop :=
  frame ∈ Frames.free before.context.freelist ∧ frame ∉ Frames.free after.context.freelist

/-- Where a call may place a block: in consecutive frames that it removed from the free list, or
in a page of the heap. -/
inductive Site (hhdmOffset : ℕ) (before after : AllocatorState) : Extent → Prop
  | frames {frame count : ℕ} (hremoved : ∀ k < count, Removed before after (frame + 4096 * k)) :
      Site hhdmOffset before after ⟨frame + hhdmOffset, 4096 * count⟩
  | page {pages : List ℕ} {page : ℕ}
      (hpages : Chain 0 (pageNext after.bytes) after.context.heapPages pages)
      (hpage : page ∈ pages) : Site hhdmOffset before after ⟨page, 4096⟩

/-- `memory_allocate_frames` is not asked for 0 frames, a block that is not `NULL` lies in a site
outside of which the call changes no byte, and its size word is at least what was requested. -/
structure SafeAnswer (hhdmOffset size : ℕ) (before : AllocatorState) (pointer : ℕ)
    (after : AllocatorState) : Prop where
  counted : 4040 < size → frameCounts size ≠ 0
  inside : pointer ≠ 0 → ∃ site, Site hhdmOffset before after site ∧
    Extent.Within ⟨pointer, size⟩ site ∧ ∀ x, ¬ site.Holds x → after.bytes x = before.bytes x
  refused : pointer = 0 → after.bytes = before.bytes
  word : pointer ≠ 0 → size ≤ load64 after.bytes (pointer - 8)

def SafeRequest (hhdmOffset : ℕ) (state : AllocatorState) (size : ℕ) : Prop :=
  ∃ pointer after, run exec (kmalloc hhdmOffset size) state = some (pointer, after) ∧
    SafeAnswer hhdmOffset size state pointer after

def FramesAvailable (freelist : FreeList) : Prop := ∃ frame, frame ∈ Frames.scanned freelist

/-- The size of a large request does not wrap around, and a segment has as many frames as it
needs. -/
def Obtainable (freelist : FreeList) (size : ℕ) : Prop :=
  4040 < size → size + 4135 < 2 ^ 64 ∧
    ∃ index < Frames.scanLimit freelist,
      (size + 4135) / 4096 ≤ (freelist.segments index).length

/-- The calls that keep the heap in order: those that keep owners, and any direct
`memory_allocate_frame`. -/
def KeepsHeap (hhdmOffset : ℕ) (t : Taken HeapConfig HeapEvent) : Prop :=
  match t.label with
  | .allocateFrame _ => True
  | .freeFrame _ _ => False
  | _ => KeepsOwners hhdmOffset t

section Requests

variable {mapping : Mapping} {config : HeapConfig} {state middle after : AllocatorState}
  {heap next : Layout} {pages : List Page} {page : Page} {size pointer totalSize x : ℕ}

/-- Preparing the page that a block is carved from changes nothing outside of it. -/
theorem Prepared.outside (h : Prepared mapping state heap totalSize middle pages)
    (hheap : Represents mapping state heap) (hpage : page ∈ pages)
    (hlargest : totalSize ≤ page.largest) (hx : ¬ page.extent.Holds x) :
    middle.bytes x = state.bytes x := by
  cases h with
  | found => rfl
  | fresh hsmall hallocated hframe hbytes =>
    rcases List.mem_cons.mp hpage with rfl | hother
    · have hle := (hheap.taken_facts one_pos hallocated hframe).1
      rw [hbytes]
      exact heapPageImage_of_outside (hheap.free_facts one_pos hle).2 hx
    · exact absurd (hsmall page hother) (not_lt.mpr hlargest)

/-- Frames that an allocation answered are removed. -/
theorem Represents.removed (h : Represents mapping state heap) {count frame : ℕ}
    (hallocated : Frames.Allocated state count frame middle) (hframe : frame ≠ 0) {k : ℕ}
    (hk : k < count) : Removed state middle (frame + 4096 * k) := by
  have hmem : frame + 4096 * k ∈ strided 4096 frame count := mem_strided.mpr ⟨k, hk, rfl⟩
  have hfree := hallocated.free_eq hframe
  have hnodup := h.sound.nodup
  rw [← hfree, Multiset.nodup_add] at hnodup
  constructor
  · rw [← hfree]
    exact Multiset.mem_add.mpr (Or.inr hmem)
  · exact fun hleft ↦ Multiset.disjoint_left.mp hnodup.2.2 hleft hmem

/-- A block that was given for a size without wrap-around is a safe answer. -/
theorem Given.safe {lock : ℕ}
    (h : Given mapping { state with memoryLock := lock } heap size pointer after next)
    (hheap : Represents mapping state heap) (hsize : 4040 < size → size + 4135 < 2 ^ 64) :
    SafeAnswer mapping.hhdmOffset size state pointer after := by
  have hlocked := hheap.withLock lock
  have hprovided := h.provided hlocked
  cases h with
  | @small middle pages front back page before behind node hsmall hprepared hmiddle hpages
      hlargest hfit =>
    have hmem : page ∈ pages := mem_of_eq_middle hpages
    obtain ⟨hnext, hgiven⟩ := hmiddle.carve hpages hfit
    have hpage : page.base ∈ (front ++ page.carve before node behind size hfit :: back).map
        Page.base := List.mem_map.mpr ⟨_, mem_middle.mpr (Or.inl rfl), rfl⟩
    refine ⟨fun hlarge ↦ absurd hlarge (by omega), fun _ ↦ ?_,
      fun hzero ↦ absurd hzero hprovided.pointer_ne, fun _ ↦ ?_⟩
    · refine ⟨page.extent, Site.page hnext.chain hpage, ?_, fun x hx ↦ ?_⟩
      · refine Extent.Within.trans ?_ (page.node_within hfit.mem)
        have hlength := hfit.le_length
        simp only [Node.extent, Extent.Within, Extent.stop]
        omega
      · have htouches : Touches page (carvedBlock node size).slot middle.bytes
            (carvedBytes middle.bytes page before node behind size) := touches_carvedBytes hfit
        rw [← hprepared.outside hlocked hmem hlargest hx]
        exact htouches.outside ((carved_within hfit.le_length).trans (page.node_within hfit.mem)) hx
    · rw [load64_of_givenBlock hgiven]
      exact size_le_carved
  | @large middle frame hlarge hcount hallocated hframe hbytes hheapPages =>
    have hcounts := frameCounts_of_lt (hsize hlarge)
    obtain ⟨hnext, hgiven, -⟩ :=
      hlocked.giveLarge hlarge hcount hallocated hframe hbytes hheapPages rfl
    refine ⟨fun _ ↦ hcount.ne', fun _ ↦ ?_, fun hzero ↦ absurd hzero hprovided.pointer_ne,
      fun _ ↦ ?_⟩
    · refine ⟨_, Site.frames fun k hk ↦ hlocked.removed hallocated hframe hk, ?_, fun x hx ↦ ?_⟩
      · simp only [Extent.Within, Extent.stop]
        omega
      · obtain ⟨hne, hword⟩ :=
          hlocked.free_facts hcount (hlocked.taken_facts hcount hallocated hframe).1
        change middle.bytes x = state.bytes x
        rw [hbytes]
        exact blockImage_of_outside hcount hword hne hx
    · rw [load64_of_givenBlock hgiven]
      dsimp only
      omega

/-- With wrap-around `kmalloc` asks for at most one frame. -/
theorem frameCounts_of_wrap (hsize : size < 2 ^ 64) (hwrap : 2 ^ 64 ≤ size + 4135) :
    frameCounts size ≤ 1 := by
  have hheader : add 32 8 = 40 := rfl
  unfold frameCounts
  simp only [sizeofHeapPage, sizeofU64, size4KB, hheader]
  unfold add sub
  omega

/-- A large request that no segment can serve is answered all the same. -/
theorem Represents.kmalloc_unserved (h : Represents mapping state heap)
    (hlock : state.memoryLock = 0) (hoffset : mapping.hhdmOffset < 2 ^ 64) (hlarge : 4040 < size)
    (hcount : 0 < frameCounts size) (hlengths : ∀ index < Frames.scanLimit state.context.freelist,
      (state.context.freelist.segments index).length < frameCounts size) :
    run exec (Kernel.kmalloc mapping.hhdmOffset size) state =
      some (mapping.hhdmOffset + 40, state) := by
  have haligned := mapping.offset_aligned
  obtain ⟨frame, after, hrun, hallocated⟩ := Frames.memoryAllocateFrames_spec mapping.hhdmOffset
    (h.withLock 1).sound hcount
  obtain rfl := hallocated.fails_iff.mpr hlengths
  obtain rfl := hallocated.unchanged rfl
  have hzero : add 0 mapping.hhdmOffset = mapping.hhdmOffset := by
    rw [add_of_lt (by omega), zero_add]
  have hfirst : add mapping.hhdmOffset 32 = mapping.hhdmOffset + 32 := add_of_lt (by omega)
  have hsecond : add (mapping.hhdmOffset + 32) 8 = mapping.hhdmOffset + 40 :=
    add_of_lt (by omega)
  have hfree : { state with memoryLock := 0 } = state := by rw [← hlock]
  rw [run_kmalloc_of_gt hlock hlarge, run_kmallocLarge, hrun, Option.map_some, hzero, hfirst,
    hsecond, hfree]

/-- Such an answer lies in no page of the heap, and the call removed no frame. -/
theorem Represents.unserved_not_safe (h : Represents mapping state heap) (hlarge : 4040 < size) :
    ¬ SafeAnswer mapping.hhdmOffset size state (mapping.hhdmOffset + 40) state := by
  intro hsafe
  obtain ⟨site, hsite, hwithin, -⟩ := hsafe.inside (Nat.succ_ne_zero _)
  cases hsite with
  | @frames frame count hremoved =>
    have hcount : 0 < count := by
      simp only [Extent.Within, Extent.stop] at hwithin
      omega
    exact (hremoved 0 hcount).2 (hremoved 0 hcount).1
  | @page pages base hpages hbase =>
    rw [Chain.unique hpages h.chain] at hbase
    obtain ⟨page, hpage, rfl⟩ := List.mem_map.mp hbase
    have hmem : page.base ∈ mapped mapping.hhdmOffset mapping.frames := by
      rw [← h.frames_eq]
      exact Multiset.mem_add.mpr (Or.inr (Layout.base_mem hpage))
    obtain ⟨frame, hframe, hmapped⟩ := mem_mapped.mp hmem
    have hne := mapping.frame_ne_zero frame hframe
    have haligned := mapping.frame_aligned frame hframe
    simp only [Extent.Within, Extent.stop] at hwithin
    omega

/-- The size word of a block that has frames of its own. -/
theorem Given.word_eq (h : Given mapping state heap size pointer after next)
    (hheap : Represents mapping state heap) (hlarge : 4040 < size) :
    load64 after.bytes (pointer - 8) = 4096 * frameCounts size - 40 := by
  cases h with
  | small hsize => exact absurd hlarge (not_lt.mpr hsize)
  | large hsize hcount hallocated hframe hbytes hheapPages =>
    obtain ⟨-, hgiven, -⟩ :=
      hheap.giveLarge hlarge hcount hallocated hframe hbytes hheapPages rfl
    exact load64_of_givenBlock hgiven

/-- What a request needs is granted if the loops find a frame and the count does not exceed a
segment. -/
theorem granted_of_available (havailable : FramesAvailable state.context.freelist)
    (hcount : 4040 < size → 0 < frameCounts size ∧
      Frames.Affords state.context.freelist (frameCounts size)) :
    Granted size state := by
  by_cases hlarge : 4040 < size
  · obtain ⟨hpos, haffords⟩ := hcount hlarge
    exact granted_of_affords hpos haffords
  · obtain ⟨frame, hframe⟩ := havailable
    obtain ⟨index, hindex, hmem⟩ := Frames.mem_frames.mp hframe
    obtain ⟨k, hk, -⟩ := Frames.mem_segmentFrames.mp hmem
    have hone : frameCounts size = 1 := by
      rw [frameCounts_of_lt (by omega)]
      omega
    exact granted_of_affords (by omega) ⟨index, hindex, by omega⟩

/-- A request is safe exactly if its size does not wrap around and the table can serve it. -/
theorem Represents.safeRequest_iff (h : Represents mapping state heap)
    (hlock : state.memoryLock = 0) (hend : mapping.EndsBefore)
    (hoffset : mapping.hhdmOffset < 2 ^ 64) (havailable : FramesAvailable state.context.freelist)
    (hsize : size < 2 ^ 64) :
    SafeRequest mapping.hhdmOffset state size ↔ Obtainable state.context.freelist size := by
  constructor
  · rintro ⟨pointer, after, hrun, hsafe⟩ hlarge
    have hpos := Nat.pos_of_ne_zero (hsafe.counted hlarge)
    have hserved : Frames.Affords state.context.freelist (frameCounts size) := by
      by_contra hnone
      rw [Frames.Affords] at hnone
      push Not at hnone
      rw [h.kmalloc_unserved hlock hoffset hlarge hpos hnone] at hrun
      obtain ⟨rfl, rfl⟩ := Prod.mk.inj (Option.some.inj hrun)
      exact h.unserved_not_safe hlarge hsafe
    have hgranted := granted_of_available havailable fun _ ↦ ⟨hpos, hserved⟩
    obtain ⟨pointer', after', next, hrun', hgiven⟩ :=
      h.kmalloc_given hlock (Or.inr (Or.inl hend)) (fun _ ↦ hpos) hgranted
    obtain ⟨rfl, rfl⟩ := Prod.mk.inj (Option.some.inj (hrun'.symm.trans hrun))
    have hword := hsafe.word (hgiven.provided (h.withLock 1)).pointer_ne
    rw [hgiven.word_eq (h.withLock 1) hlarge] at hword
    have hlt : size + 4135 < 2 ^ 64 := by
      by_contra hwrap
      have hle := frameCounts_of_wrap hsize (not_lt.mp hwrap)
      omega
    rw [frameCounts_of_lt hlt] at hserved
    exact ⟨hlt, hserved⟩
  · intro hobtainable
    have hcounts : 4040 < size → 0 < frameCounts size ∧
        Frames.Affords state.context.freelist (frameCounts size) := by
      intro hlarge
      obtain ⟨hlt, hserved⟩ := hobtainable hlarge
      rw [frameCounts_of_lt hlt]
      exact ⟨by omega, hserved⟩
    have hgranted := granted_of_available havailable hcounts
    obtain ⟨pointer, after, next, hrun, hgiven⟩ :=
      h.kmalloc_given hlock (Or.inr (Or.inl hend)) (fun hlarge ↦ (hcounts hlarge).1) hgranted
    exact ⟨pointer, after, hrun, hgiven.safe h fun hlarge ↦ (hobtainable hlarge).1⟩

/-- A call that keeps the heap in order keeps it tracked, apart from frames that direct callers
hold. -/
theorem Tracks.keepHeap {event : HeapEvent} {final : HeapConfig}
    (h : Tracks mapping { config with owned := 0 } heap) (hend : mapping.EndsBefore)
    (hoffset : mapping.hhdmOffset < 2 ^ 64)
    (hstep : HeapStep mapping.hhdmOffset config event final)
    (hkeeps : KeepsHeap mapping.hhdmOffset ⟨config, event, final⟩) :
    ∃ layout, Tracks mapping { final with owned := 0 } layout := by
  cases hstep with
  | @kmalloc size pointer after hrun =>
    exact h.step hend hoffset (@HeapStep.kmalloc _ { config with owned := 0 } _ _ _ hrun) hkeeps
  | @kfree block ok after hlive hrun =>
    exact h.step hend hoffset (@HeapStep.kfree _ { config with owned := 0 } _ _ _ hlive hrun) hkeeps
  | write hlive hroom => exact ⟨heap, h.write hlive hroom⟩
  | @allocateFrame frame after hrun =>
    obtain ⟨frame', after', hrun', hallocated⟩ :=
      Frames.memoryAllocateFrame_spec mapping.hhdmOffset h.represents.sound
    obtain ⟨rfl, rfl⟩ := Prod.mk.inj (Option.some.inj (hrun'.symm.trans hrun))
    by_cases hframe : frame' = 0
    · have hsame : after' = config.state := hallocated.unchanged hframe
      rw [hsame]
      exact ⟨heap, h⟩
    · obtain ⟨-, -, hnext⟩ := h.represents.newPage hrun hframe
      refine ⟨_, hnext, hallocated.lock_eq.trans h.lock_eq, h.nodup, fun block ↦ ?_, rfl⟩
      rw [h.live_iff block]
      simp [Layout.Live, Page.fresh]
  | freeFrame howned hrun => exact hkeeps.elim

/-- After calls that keep the heap in order, it is tracked apart from frames that direct callers
hold. -/
theorem tracks_of_run {hhdmOffset : ℕ} {start final : HeapConfig}
    {taken : List (Taken HeapConfig HeapEvent)} (hboot : Booted hhdmOffset start)
    (hend : ∀ frame ∈ Frames.free start.freelist, frame + hhdmOffset + 4096 < 2 ^ 64)
    (hoffset : hhdmOffset < 2 ^ 64) (hrun : Run (HeapStep hhdmOffset) start taken final)
    (hkeeps : ∀ t ∈ taken, KeepsHeap hhdmOffset t) :
    ∃ heap, Tracks hboot.mapping { final with owned := 0 } heap := by
  have hstart : { start with owned := 0 } = start := by rw [← hboot.owned_eq]
  refine hrun.invariant (fun config ↦ ∃ heap, Tracks hboot.mapping { config with owned := 0 } heap)
    (KeepsHeap hhdmOffset) ⟨⟨[], ∅⟩, by rw [hstart]; exact hboot.tracks⟩
    (fun before event after hbefore hstep hcondition ↦ ?_) hkeeps
  obtain ⟨heap, hheap⟩ := hbefore
  exact hheap.keepHeap hend hoffset hstep hcondition

/-- In every reachable state with a frame available, a request of any size is safe exactly if its
size does not wrap around and the table can serve it. -/
theorem kmalloc_safe_iff {hhdmOffset : ℕ} {start final : HeapConfig}
    {taken : List (Taken HeapConfig HeapEvent)} (hboot : Booted hhdmOffset start)
    (hend : ∀ frame ∈ Frames.free start.freelist, frame + hhdmOffset + 4096 < 2 ^ 64)
    (hoffset : hhdmOffset < 2 ^ 64) (hrun : Run (HeapStep hhdmOffset) start taken final)
    (hkeeps : ∀ t ∈ taken, KeepsHeap hhdmOffset t) (havailable : FramesAvailable final.freelist)
    (hsize : size < 2 ^ 64) :
    SafeRequest hhdmOffset final.state size ↔ Obtainable final.freelist size := by
  obtain ⟨heap, hheap⟩ := tracks_of_run hboot hend hoffset hrun hkeeps
  exact hheap.represents.safeRequest_iff hheap.lock_eq hend hoffset havailable hsize

theorem available_bootedHeap : FramesAvailable bootedHeap.freelist := ⟨4096, by decide⟩

theorem bootedHeap_end_lt :
    ∀ frame ∈ Frames.free bootedHeap.freelist, frame + 0 + 4096 < 2 ^ 64 := by
  decide

/-- After boot a request of 5000 bytes takes both frames. -/
theorem kmalloc_safe_bootedHeap : SafeRequest 0 bootedHeap.state 5000 :=
  (kmalloc_safe_iff booted_bootedHeap bootedHeap_end_lt (by norm_num) Run.nil nofun
    available_bootedHeap (by norm_num)).mpr fun _ ↦ ⟨by norm_num, 0, by decide, by decide⟩

/-- After boot a request of all addresses but one is answered by a block of 4056 bytes. -/
theorem kmalloc_unsafe_bootedHeap : ¬ SafeRequest 0 bootedHeap.state (2 ^ 64 - 1) := by
  intro hsafe
  have hobtainable := (booted_bootedHeap.tracks.represents.safeRequest_iff
    booted_bootedHeap.lock_eq bootedHeap_end_lt (by exact Nat.two_pow_pos 64) available_bootedHeap
      (by norm_num)).mp hsafe
  exact absurd (hobtainable (by norm_num)).1 (by norm_num)

end Requests

end SideHOS.Heap
