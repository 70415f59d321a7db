import SideHOS.Heap.Blank

/-!
# What the heap has given out

Of the heap, code which only calls `kmalloc` and uses its blocks needs to know which extents it was
given.  `Lends` says that these are the payloads of the live blocks of a heap in order, in which no
block was used before.  `kmalloc` adds an extent, zero if it is small, and leaves the bytes of the
others alone; the owners may write into all of them; and a request is granted as long as the scanned
segments have enough frames in total.
-/

namespace SideHOS.Heap

open Kernel Machine Machine.ByteMemory Sharing.Program Transition

/-- The heap is in order and its lock is free, its nodes are blank, and these are the payloads in
use, the latest first. -/
def Lends (mapping : Mapping) (state : AllocatorState) (extents : List Extent) : Prop :=
  ∃ live heap, Serves mapping maximumSize ⟨state, live, 0⟩ heap ∧
    Blank state.bytes heap.pages ∧ live.map Block.payload = extents

def available (state : AllocatorState) : ℕ := (Frames.scanned state.context.freelist).card

/-- The allocation loops can find this many frames, and one more for every segment they scan: as
many as may be left over in segments that have only one. -/
def HasFrames (count : ℕ) (state : AllocatorState) : Prop :=
  Frames.scanLimit state.context.freelist + count ≤ available state

section Lending

variable {mapping : Mapping} {state : AllocatorState} {after : Memory} {extents : List Extent}
  {extent : Extent} {heap : Layout} {block : Block} {size : ℕ}

/-- If all scanned segments were shorter, they would have fewer frames in total. -/
theorem exists_segment_of_card {freelist : FreeList} {limit count : ℕ}
    (h : (count - 1) * limit < (Frames.frames freelist limit).card) :
    ∃ index < limit, count ≤ (freelist.segments index).length := by
  by_contra hshort
  push Not at hshort
  have hcard : (Frames.frames freelist limit).card =
      ∑ index ∈ Finset.range limit, (freelist.segments index).length := by
    simp only [Frames.frames, Frames.segmentFrames, Multiset.card_sum, card_strided]
  have hle : ∑ index ∈ Finset.range limit, (freelist.segments index).length ≤
      (count - 1) * limit := by
    calc ∑ index ∈ Finset.range limit, (freelist.segments index).length
        ≤ (Finset.range limit).card • (count - 1) := by
          apply Finset.sum_le_card_nsmul
          intro index hindex
          exact Nat.le_sub_one_of_lt (hshort index (Finset.mem_range.mp hindex))
      _ = (count - 1) * limit := by rw [Finset.card_range, smul_eq_mul, mul_comm]
  rw [hcard] at h
  exact absurd h (not_lt.mpr hle)

/-- A request is granted while the scanned segments have more frames than they could have with each
too short for it. -/
theorem granted_of_frames (hcount : 0 < frameCounts size)
    (h : (frameCounts size - 1) * Frames.scanLimit state.context.freelist < available state) :
    Granted size state := by
  exact granted_of_affords hcount (exists_segment_of_card h)

/-- A call of `kmalloc` takes at most the frames that its block and headers fill. -/
theorem Given.available_le {pointer : ℕ} {final : AllocatorState} {next : Layout}
    (h : Given mapping state heap size pointer final next) :
    available state ≤ available final + frameCounts size := by
  cases h with
  | small hsize hprepared hmiddle hpages hlargest hfit =>
    have hone : frameCounts size = 1 := by
      rw [frameCounts_of_lt (by omega)]
      omega
    cases hprepared with
    | found => exact Nat.le_add_right _ _
    | fresh hsmall hallocated hframe hbytes =>
      have hcard := congrArg Multiset.card (hallocated.scanned_eq hframe)
      rw [Multiset.card_add, card_strided] at hcard
      rw [hone]
      exact hcard.ge
  | large hsize hcount hallocated hframe hbytes hheapPages =>
    have hcard := congrArg Multiset.card (hallocated.scanned_eq hframe)
    rw [Multiset.card_add, card_strided] at hcard
    exact hcard.ge

theorem Lends.mem_iff_live {live : List Block} (hextents : live.map Block.payload = extents) :
    extent ∈ extents ↔ ∃ block ∈ live, block.payload = extent := by
  rw [← hextents, List.mem_map]

/-- The extents do not overlap. -/
theorem Lends.pairwise (h : Lends mapping state extents) : extents.Pairwise Extent.Apart := by
  obtain ⟨live, heap, hserves, -, rfl⟩ := h
  rw [List.pairwise_map]
  apply hserves.nodup.pairwise_of_forall_ne
  intro first hfirst second hsecond hne
  exact hserves.payloads_apart maximumSize_lt hfirst hsecond hne

theorem Lends.apart {other : Extent} (h : Lends mapping state extents) (hextent : extent ∈ extents)
    (hother : other ∈ extents) (hne : extent ≠ other) : extent.Apart other := by
  have hsymm : Std.Symm Extent.Apart := ⟨fun _ _ ↦ Extent.Apart.symm⟩
  exact h.pairwise.forall hextent hother hne

/-- The extents are in the address space, and none is at `NULL`. -/
theorem Lends.bounds (h : Lends mapping state extents) (hextent : extent ∈ extents) :
    extent.start ≠ 0 ∧ extent.stop ≤ 2 ^ 64 := by
  obtain ⟨live, heap, hserves, -, hextents⟩ := h
  obtain ⟨block, hblock, rfl⟩ := (Lends.mem_iff_live hextents).mp hextent
  have hpointer := hserves.pointer_ge hblock
  refine ⟨?_, hserves.payload_stop_le maximumSize_lt hblock⟩
  simp only [Block.payload]
  omega

/-- Where the mapped memory ends before the last address, so do the payloads of small blocks. -/
theorem Lends.stop_lt (h : Lends mapping state extents) (hend : mapping.EndsBefore)
    (hextent : extent ∈ extents) (hsize : extent.length ≤ 4040) : extent.stop < 2 ^ 64 := by
  obtain ⟨live, heap, hserves, -, hextents⟩ := h
  obtain ⟨block, hblock, rfl⟩ := (Lends.mem_iff_live hextents).mp hextent
  obtain ⟨frame, count, husable, -, hwithin, hcount⟩ := hserves.in_frames hblock
  have hone : count = 1 := hcount hsize
  have hframe : frame ∈ mapping.frames :=
    Multiset.mem_of_le husable (mem_strided.mpr ⟨0, by omega, rfl⟩)
  have hstop := ((hserves.payload_within maximumSize_lt hblock).trans hwithin).2
  have hlast := hend frame hframe
  simp only [Extent.stop, hone] at hstop ⊢
  omega

/-- Every byte of an extent is in a mapped frame. -/
theorem Lends.exists_frame (h : Lends mapping state extents) (hextent : extent ∈ extents) {x : ℕ}
    (hx : extent.Holds x) : ∃ frame ∈ mapping.frames,
      frame + mapping.hhdmOffset ≤ x ∧ x < frame + mapping.hhdmOffset + 4096 := by
  obtain ⟨live, heap, hserves, -, hextents⟩ := h
  obtain ⟨block, hblock, rfl⟩ := (Lends.mem_iff_live hextents).mp hextent
  obtain ⟨frame, count, husable, -, hwithin, -⟩ := hserves.in_frames hblock
  obtain ⟨hlow, hhigh⟩ :=
    ((hserves.payload_within maximumSize_lt hblock).trans hwithin).holds hx
  simp only [Extent.stop] at hlow hhigh
  have hindex : (x - (frame + mapping.hhdmOffset)) / 4096 < count := by omega
  refine ⟨frame + 4096 * ((x - (frame + mapping.hhdmOffset)) / 4096),
    Multiset.mem_of_le husable (mem_strided.mpr ⟨_, hindex, rfl⟩), ?_, ?_⟩
  · omega
  · omega

/-- Nothing written into blocks in use disturbs the heap. -/
theorem Represents.writes {blocks : List Block} (h : Represents mapping state heap)
    (hlive : ∀ block ∈ blocks, heap.Live block)
    (hkept : ∀ x, (∀ block ∈ blocks, ¬ block.room.Holds x) → after x = state.bytes x) :
    Represents mapping { state with bytes := after } heap := by
  classical
  induction blocks generalizing state with
  | nil =>
    have hafter : after = state.bytes := funext fun x ↦ hkept x (by simp)
    rw [hafter]
    exact h
  | cons block blocks ih =>
    rw [List.forall_mem_cons] at hlive
    have hfirst : Represents mapping { state with
        bytes := fun x ↦ if block.room.Holds x then after x else state.bytes x } heap :=
      h.write hlive.1 fun x hx ↦ if_neg hx
    have hothers (x : ℕ) (hx : ∀ other ∈ blocks, ¬ other.room.Holds x) :
        after x = if block.room.Holds x then after x else state.bytes x := by
      split_ifs with hroom
      · rfl
      · exact hkept x (List.forall_mem_cons.mpr ⟨hroom, hx⟩)
    have hrest := ih hfirst hlive.2 hothers
    exact hrest

/-- The owners may write into the extents. -/
theorem Lends.write (h : Lends mapping state extents)
    (hkept : ∀ x, (∀ extent ∈ extents, ¬ extent.Holds x) → after x = state.bytes x) :
    Lends mapping { state with bytes := after } extents := by
  obtain ⟨live, heap, hserves, hblank, rfl⟩ := h
  have hlive (block : Block) (hblock : block ∈ live) : heap.Live block :=
    (hserves.live_iff block).mp hblock
  have hrooms (x : ℕ) (hx : ∀ block ∈ live, ¬ block.room.Holds x) : after x = state.bytes x := by
    apply hkept
    intro extent hextent hholds
    obtain ⟨block, hblock, rfl⟩ := List.mem_map.mp hextent
    have hle := hserves.size_le_word maximumSize_lt hblock
    have hwithin : block.payload.Within block.room :=
      ⟨le_rfl, Nat.add_le_add_left hle block.pointer⟩
    exact hx block hblock (hwithin.holds hholds)
  have hrepresents : Represents mapping { state with bytes := after } heap :=
    hserves.represents.writes hlive hrooms
  exact ⟨live, heap, { hserves with represents := hrepresents },
    hserves.represents.blank_writes hblank hlive hrooms, rfl⟩

/-- A request for one or two frames is granted while there are frames.  It adds an extent, zero if
it is small, and leaves the bytes of the others alone. -/
theorem Lends.kmalloc {count : ℕ} (h : Lends mapping state extents) (hpos : 1 ≤ size)
    (hsize : size ≤ maximumSize) (htwo : frameCounts size ≤ 2)
    (hframes : HasFrames (frameCounts size + count) state) :
    ∃ pointer final, run exec (kmalloc mapping.hhdmOffset size) state = some (pointer, final) ∧
      Lends mapping final (⟨pointer, size⟩ :: extents) ∧
      (size ≤ 4040 → ∀ x, (Extent.mk pointer size).Holds x → final.bytes x = 0) ∧
      (∀ extent ∈ extents, ∀ x, extent.Holds x → final.bytes x = state.bytes x) ∧
      HasFrames count final := by
  obtain ⟨live, heap, hserves, hblank, rfl⟩ := h
  have hbound := maximumSize_lt
  have hcount : 0 < frameCounts size := (frameCounts_bounds (by omega)).1
  have hgranted : Granted size state := by
    have hle := Nat.mul_le_mul_right (Frames.scanLimit state.context.freelist)
      (show frameCounts size - 1 ≤ 1 by omega)
    unfold HasFrames at hframes
    have hlt : (frameCounts size - 1) * Frames.scanLimit state.context.freelist <
        available state := by omega
    exact granted_of_frames hcount hlt
  obtain ⟨pointer, final, next, hne, hstep, hgiven, htracks⟩ :=
    hserves.exists_kmalloc_given (Or.inl hpos) (fun _ ↦ hcount) hgranted
  have hlocked := hserves.represents.withLock 1
  have hprovided := hgiven.provided hlocked
  obtain ⟨hblankAfter, hzero⟩ := hgiven.blank hlocked hblank
  have hrun : run exec (Kernel.kmalloc mapping.hhdmOffset size) state = some (pointer, final) := by
    generalize hafter : (⟨final, givenBlock size pointer final :: live, 0⟩ : HeapConfig) = config
      at hstep
    cases hstep with
    | kmalloc hrun =>
      obtain ⟨rfl, -⟩ := HeapConfig.mk.inj hafter
      exact hrun
  refine ⟨pointer, final, hrun, ⟨_, next, ⟨htracks, ?_⟩, hblankAfter, rfl⟩, hzero, ?_, ?_⟩
  · rw [List.forall_mem_cons]
    exact ⟨⟨hpos, hsize⟩, hserves.sizes⟩
  · intro extent hextent x hx
    obtain ⟨block, hblock, rfl⟩ := List.mem_map.mp hextent
    have hcell := (hserves.payload_within hbound hblock).holds hx
    exact hgiven.untouched hlocked ((hserves.live_iff block).mp hblock) hcell
  · have hlimit : Frames.scanLimit final.context.freelist =
        Frames.scanLimit state.context.freelist :=
      congrArg (fun cursor ↦ (Word64.int8 cursor).toNat) hprovided.cursor_eq
    have hle : available state ≤ available final + frameCounts size := hgiven.available_le
    unfold HasFrames at hframes ⊢
    omega

end Lending

end SideHOS.Heap
