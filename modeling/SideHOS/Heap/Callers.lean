import SideHOS.Heap.Calls
import SideHOS.Frames.Partition

/-!
# The heap and its callers

Callers of both allocation layers: `kmalloc`, `kfree` of live blocks, `memory_allocate_frame` and
`memory_free_frame` called directly, and writes of a block's owner to the block.  `Tracks` relates
a state with its callers to a heap layout; each call that is granted what it asks for keeps this
relation.
-/

namespace SideHOS.Heap

open Kernel Linked Machine Machine.Word64 Machine.ByteMemory Sharing Sharing.Program Transition

/-- The allocator, the blocks `kmalloc` answered that were not freed since, and the frames direct
callers of `memory_allocate_frame` hold. -/
structure HeapConfig where
  state : AllocatorState
  live : List Block
  owned : Multiset ℕ

abbrev HeapConfig.freelist (config : HeapConfig) : FreeList := config.state.context.freelist

/-- A call with its answer, or a write to a block. -/
inductive HeapEvent where
  | kmalloc (size pointer : ℕ)
  | kfree (block : Block) (ok : Bool)
  | write (block : Block) (address : ℕ) (value : UInt8)
  | allocateFrame (frame : ℕ)
  | freeFrame (physical : ℕ) (ok : Bool)

/-- One call, or one byte written by the owner of a block. -/
inductive HeapStep (hhdmOffset : ℕ) : HeapConfig → HeapEvent → HeapConfig → Prop
  | kmalloc {config : HeapConfig} {size pointer : ℕ} {after : AllocatorState}
      (hrun : run exec (kmalloc hhdmOffset size) config.state = some (pointer, after)) :
      HeapStep hhdmOffset config (.kmalloc size pointer)
        { state := after
          live := if pointer = 0 then config.live
            else givenBlock size pointer after :: config.live
          owned := config.owned }
  | kfree {config : HeapConfig} {block : Block} {ok : Bool} {after : AllocatorState}
      (hlive : block ∈ config.live)
      (hrun : run exec (kfree hhdmOffset block.pointer) config.state = some (ok, after)) :
      HeapStep hhdmOffset config (.kfree block ok)
        { state := after, live := config.live.erase block, owned := config.owned }
  | write {config : HeapConfig} {block : Block} {address : ℕ} {value : UInt8}
      (hlive : block ∈ config.live) (hroom : block.room.Holds address) :
      HeapStep hhdmOffset config (.write block address value)
        { config with
          state := { config.state with bytes := store8 config.state.bytes address value } }
  | allocateFrame {config : HeapConfig} {frame : ℕ} {after : AllocatorState}
      (hrun : run exec (memoryAllocateFrame hhdmOffset) config.state = some (frame, after)) :
      HeapStep hhdmOffset config (.allocateFrame frame)
        { state := after
          live := config.live
          owned := config.owned + if frame = 0 then 0 else {frame} }
  | freeFrame {config : HeapConfig} {physical : ℕ} {ok : Bool} {after : AllocatorState}
      (howned : physical ∈ config.owned)
      (hrun : run exec (memoryFreeFrame physical) config.state = some (ok, after)) :
      HeapStep hhdmOffset config (.freeFrame physical ok)
        { state := after
          live := config.live
          owned := config.owned - if ok then {physical} else 0 }

/-- The state at boot: a sound table of mapped frames, no heap page and no caller. -/
structure Booted (hhdmOffset : ℕ) (config : HeapConfig) : Prop where
  sound : Frames.Sound config.freelist
  offset_aligned : hhdmOffset % 4096 = 0
  end_le : ∀ frame ∈ Frames.free config.freelist, frame + hhdmOffset + 4096 ≤ 2 ^ 64
  heapPages_eq : config.state.context.heapPages = 0
  lock_eq : config.state.memoryLock = 0
  live_eq : config.live = []
  owned_eq : config.owned = 0

def Booted.mapping {hhdmOffset : ℕ} {config : HeapConfig} (h : Booted hhdmOffset config) :
    Mapping where
  hhdmOffset := hhdmOffset
  frames := Frames.free config.freelist
  offset_aligned := h.offset_aligned
  nodup := h.sound.nodup
  frame_aligned _ hframe := (Frames.aligned_of_mem h.sound hframe).1
  frame_ne_zero _ hframe := (Frames.aligned_of_mem h.sound hframe).2.1
  end_le := h.end_le

/-- The layout is the heap of this configuration, and nobody holds a frame directly. -/
structure Tracks (mapping : Mapping) (config : HeapConfig) (heap : Layout) : Prop where
  represents : Represents mapping config.state heap
  lock_eq : config.state.memoryLock = 0
  nodup : config.live.Nodup
  live_iff : ∀ block, block ∈ config.live ↔ heap.Live block
  owned_eq : config.owned = 0

section Tracks

variable {mapping : Mapping} {config : HeapConfig} {heap : Layout} {block : Block}
  {size pointer address : ℕ} {value : UInt8} {ok : Bool} {after : AllocatorState}

theorem Booted.tracks {hhdmOffset : ℕ} (h : Booted hhdmOffset config) :
    Tracks h.mapping config ⟨[], ∅⟩ where
  represents :=
    { sound := h.sound
      frames_eq := by
        change mapped _ _ + (0 + 0) = mapped _ _
        rw [add_zero, add_zero]
        rfl
      chain := h.heapPages_eq
      pages := by simp
      large := by simp
      words := by simp }
  lock_eq := h.lock_eq
  nodup := by rw [h.live_eq]; exact List.nodup_nil
  live_iff block := by simp [h.live_eq, Layout.Live]
  owned_eq := h.owned_eq

/-- A block that was given to a caller is tracked. -/
theorem Tracks.give {next : Layout} (h : Tracks mapping config heap)
    (hgiven : Given mapping { config.state with memoryLock := 1 } heap size pointer after next) :
    pointer ≠ 0 ∧ next.lost = heap.lost ∧
      Tracks mapping ⟨after, givenBlock size pointer after :: config.live, config.owned⟩ next := by
  have hprovided := hgiven.provided (h.represents.withLock 1)
  refine ⟨hprovided.pointer_ne, hprovided.lost_eq, {
    represents := hprovided.represents
    lock_eq := hprovided.lock_eq
    nodup := List.nodup_cons.mpr ⟨fun hmem ↦ hprovided.new ((h.live_iff _).mp hmem), h.nodup⟩
    live_iff := fun block ↦ ?_
    owned_eq := h.owned_eq }⟩
  rw [List.mem_cons, hprovided.live_iff, h.live_iff]

/-- `kmalloc` with its frames granted, in full. -/
theorem Tracks.kmalloc_given (h : Tracks mapping config heap)
    (hend : 0 < size ∨ mapping.EndsBefore ∨ ¬ TightFit config.state)
    (hcount : 4040 < size → 0 < frameCounts size)
    (hgranted : Granted size config.state)
    (hrun : run exec (kmalloc mapping.hhdmOffset size) config.state = some (pointer, after)) :
    pointer ≠ 0 ∧ ∃ next, next.lost = heap.lost ∧
      Given mapping { config.state with memoryLock := 1 } heap size pointer after next ∧
      Tracks mapping ⟨after, givenBlock size pointer after :: config.live, config.owned⟩ next := by
  obtain ⟨pointer', after', next, hrun', hgiven⟩ :=
    h.represents.kmalloc_given h.lock_eq hend hcount hgranted
  obtain ⟨rfl, rfl⟩ := Prod.mk.inj (Option.some.inj (hrun'.symm.trans hrun))
  obtain ⟨hne, hlost, hnext⟩ := h.give hgiven
  exact ⟨hne, next, hlost, hgiven, hnext⟩

theorem Tracks.kmalloc (h : Tracks mapping config heap)
    (hend : 0 < size ∨ mapping.EndsBefore ∨ ¬ TightFit config.state)
    (hcount : 4040 < size → 0 < frameCounts size)
    (hgranted : Granted size config.state)
    (hrun : run exec (kmalloc mapping.hhdmOffset size) config.state = some (pointer, after)) :
    pointer ≠ 0 ∧ ∃ next, next.lost = heap.lost ∧
      Tracks mapping ⟨after, givenBlock size pointer after :: config.live, config.owned⟩ next := by
  obtain ⟨hne, next, hlost, -, hnext⟩ := h.kmalloc_given hend hcount hgranted hrun
  exact ⟨hne, next, hlost, hnext⟩

/-- `kfree` of a live block, in full. -/
theorem Tracks.kfree_reclaimed (h : Tracks mapping config heap) (hlive : block ∈ config.live)
    (haligned : block.pointer % 4096 ≠ 0)
    (hcursor : 4040 < block.size → config.freelist.cursor < 255)
    (hrun : run exec (kfree mapping.hhdmOffset block.pointer) config.state = some (ok, after)) :
    ok = true ∧ ∃ next, next.lost = heap.lost + (if 4040 < block.size then 0 else 1) ∧
      Reclaimed mapping config.state heap block after next ∧
      Tracks mapping ⟨after, config.live.erase block, config.owned⟩ next := by
  obtain ⟨after', next, hrun', hreclaimed, hfree, hentries⟩ :=
    h.represents.kfree_reclaimed h.lock_eq ((h.live_iff block).mp hlive) haligned hcursor
  obtain ⟨rfl, rfl⟩ := Prod.mk.inj (Option.some.inj (hrun'.symm.trans hrun))
  have hreturned := hreclaimed.returned h.represents hfree hentries
  refine ⟨rfl, next, hreturned.lost_eq, hreclaimed, {
    represents := hreturned.represents
    lock_eq := hreturned.lock_eq
    nodup := h.nodup.erase block
    live_iff := fun other ↦ ?_
    owned_eq := h.owned_eq }⟩
  rw [h.nodup.mem_erase_iff, hreturned.live_iff, h.live_iff, and_comm]

theorem Tracks.kfree (h : Tracks mapping config heap) (hlive : block ∈ config.live)
    (haligned : block.pointer % 4096 ≠ 0)
    (hcursor : 4040 < block.size → config.freelist.cursor < 255)
    (hrun : run exec (kfree mapping.hhdmOffset block.pointer) config.state = some (ok, after)) :
    ok = true ∧ ∃ next, next.lost = heap.lost + (if 4040 < block.size then 0 else 1) ∧
      Tracks mapping ⟨after, config.live.erase block, config.owned⟩ next := by
  obtain ⟨hok, next, hlost, -, hnext⟩ := h.kfree_reclaimed hlive haligned hcursor hrun
  exact ⟨hok, next, hlost, hnext⟩

theorem Tracks.write (h : Tracks mapping config heap) (hlive : block ∈ config.live)
    (hroom : block.room.Holds address) :
    Tracks mapping { config with
      state := { config.state with bytes := store8 config.state.bytes address value } } heap where
  represents := h.represents.write ((h.live_iff block).mp hlive) fun _ hx ↦
    store8_of_ne fun heq ↦ hx (heq ▸ hroom)
  lock_eq := h.lock_eq
  nodup := h.nodup
  live_iff := h.live_iff
  owned_eq := h.owned_eq

/-- A `kmalloc` whose frames are granted returns. -/
theorem Tracks.exists_kmalloc_given (h : Tracks mapping config heap)
    (hend : 0 < size ∨ mapping.EndsBefore ∨ ¬ TightFit config.state)
    (hcount : 4040 < size → 0 < frameCounts size)
    (hgranted : Granted size config.state) :
    ∃ pointer after next, pointer ≠ 0 ∧
      HeapStep mapping.hhdmOffset config (.kmalloc size pointer)
        ⟨after, givenBlock size pointer after :: config.live, config.owned⟩ ∧
      Given mapping { config.state with memoryLock := 1 } heap size pointer after next ∧
      Tracks mapping ⟨after, givenBlock size pointer after :: config.live, config.owned⟩ next := by
  obtain ⟨pointer, after, -, hrun, -⟩ := h.represents.kmalloc_given h.lock_eq hend hcount hgranted
  obtain ⟨hne, next, -, hgiven, hnext⟩ := h.kmalloc_given hend hcount hgranted hrun
  have hstep := HeapStep.kmalloc hrun
  rw [if_neg hne] at hstep
  exact ⟨pointer, after, next, hne, hstep, hgiven, hnext⟩

theorem Tracks.exists_kmalloc (h : Tracks mapping config heap)
    (hend : 0 < size ∨ mapping.EndsBefore ∨ ¬ TightFit config.state)
    (hcount : 4040 < size → 0 < frameCounts size)
    (hgranted : Granted size config.state) :
    ∃ pointer after, pointer ≠ 0 ∧
      after.context.freelist.cursor = config.freelist.cursor ∧
      HeapStep mapping.hhdmOffset config (.kmalloc size pointer)
        ⟨after, givenBlock size pointer after :: config.live, config.owned⟩ := by
  obtain ⟨pointer, after, next, hne, hstep, hgiven, -⟩ :=
    h.exists_kmalloc_given hend hcount hgranted
  exact ⟨pointer, after, hne, (hgiven.provided (h.represents.withLock 1)).cursor_eq, hstep⟩

/-- A `kfree` of a live block returns. -/
theorem Tracks.exists_kfree_reclaimed (h : Tracks mapping config heap)
    (hlive : block ∈ config.live) (haligned : block.pointer % 4096 ≠ 0)
    (hcursor : 4040 < block.size → config.freelist.cursor < 255) :
    ∃ after next, HeapStep mapping.hhdmOffset config (.kfree block true)
        ⟨after, config.live.erase block, config.owned⟩ ∧
      Reclaimed mapping config.state heap block after next ∧
      Tracks mapping ⟨after, config.live.erase block, config.owned⟩ next := by
  obtain ⟨after, -, hrun, -⟩ := h.represents.kfree_reclaimed h.lock_eq
    ((h.live_iff block).mp hlive) haligned hcursor
  obtain ⟨-, next, -, hreclaimed, hnext⟩ := h.kfree_reclaimed hlive haligned hcursor hrun
  exact ⟨after, next, HeapStep.kfree hlive hrun, hreclaimed, hnext⟩

theorem Tracks.exists_kfree (h : Tracks mapping config heap) (hlive : block ∈ config.live)
    (haligned : block.pointer % 4096 ≠ 0)
    (hcursor : 4040 < block.size → config.freelist.cursor < 255) :
    ∃ after, HeapStep mapping.hhdmOffset config (.kfree block true)
      ⟨after, config.live.erase block, config.owned⟩ := by
  obtain ⟨after, -, hstep, -⟩ := h.exists_kfree_reclaimed hlive haligned hcursor
  exact ⟨after, hstep⟩

/-- The pointer to a nonempty small block is not on a page boundary, and neither is any pointer
to a large block. -/
theorem Represents.pointer_not_aligned {state : AllocatorState} (h : Represents mapping state heap)
    (hlive : heap.Live block) (hsize : 0 < block.size) : block.pointer % 4096 ≠ 0 := by
  rcases hlive with hlarge | ⟨page, hpage, hblock⟩
  · have haligned := (h.large_facts hlarge).1
    have hpointer := (h.large block hlarge).pointer_ge
    omega
  · have haligned := (h.page_facts hpage).1
    have hwithin := page.blocks_within block hblock
    have hle := page.size_le block hblock
    simp only [Block.slot, Extent.stop] at hwithin
    omega

/-- A nonempty block of the only page can be freed. -/
theorem Tracks.exists_release {page : Page} (h : Tracks mapping config ⟨[page], ∅⟩)
    (hblock : block ∈ page.blocks) (hsize : 0 < block.size) :
    ∃ after, block ∈ config.live ∧ block.pointer % 4096 ≠ 0 ∧
      HeapStep mapping.hhdmOffset config (.kfree block true)
        ⟨after, config.live.erase block, config.owned⟩ ∧
      after.context.freelist.cursor = config.freelist.cursor ∧
      Tracks mapping ⟨after, config.live.erase block, config.owned⟩
        ⟨[page.release block hblock], ∅⟩ := by
  have hlive : Layout.Live ⟨[page], ∅⟩ block := Or.inr ⟨page, List.mem_singleton_self _, hblock⟩
  have hmem := (h.live_iff block).mpr hlive
  have haligned := h.represents.pointer_not_aligned hlive hsize
  obtain ⟨bytes, hrun, -⟩ := h.represents.run_kfree_small h.lock_eq (List.mem_singleton_self page)
    hblock haligned
  obtain ⟨-, next, -, hreclaimed, hnext⟩ := h.kfree_reclaimed hmem haligned
    (fun hlarge ↦ absurd hlarge (not_lt.mpr (Page.size_le_small hblock))) hrun
  obtain rfl := hreclaimed.single hblock
  exact ⟨_, hmem, haligned, HeapStep.kfree hmem hrun, rfl, hnext⟩

/-! ## Calls of the heap alone -/

/-- Only the heap is called, with sizes from 1 to `maximum`, and no frame request is refused. -/
def Served (maximum : ℕ) (t : Taken HeapConfig HeapEvent) : Prop :=
  match t.label with
  | .kmalloc size _ => 1 ≤ size ∧ size ≤ maximum ∧ Granted size t.before.state
  | .kfree _ _ => True
  | .write _ _ _ => True
  | .allocateFrame _ => False
  | .freeFrame _ _ => False

theorem Served.mono {low high : ℕ} {t : Taken HeapConfig HeapEvent} (h : Served low t)
    (hle : low ≤ high) : Served high t := by
  unfold Served at h ⊢
  split at h
  · exact ⟨h.1, h.2.1.trans hle, h.2.2⟩
  · trivial
  · trivial
  · exact h
  · exact h

/-- The largest size for which neither the header nor rounding up to frames wraps around. -/
def maximumSize : ℕ := 2 ^ 64 - 4136

theorem maximumSize_lt : maximumSize + 4135 < 2 ^ 64 := by norm_num [maximumSize]

/-- How many blocks a call gives back to heap pages. -/
def HeapEvent.released : HeapEvent → ℕ
  | .kfree block _ => if 4040 < block.size then 0 else 1
  | _ => 0

/-- A tracked heap whose blocks have sizes from 1 to `maximum`. -/
structure Serves (mapping : Mapping) (maximum : ℕ) (config : HeapConfig) (heap : Layout) : Prop
    extends Tracks mapping config heap where
  sizes : ∀ block ∈ config.live, 1 ≤ block.size ∧ block.size ≤ maximum

theorem frameCounts_bounds (hsize : size + 4135 < 2 ^ 64) :
    0 < frameCounts size ∧ size + 40 ≤ 4096 * frameCounts size := by
  rw [frameCounts_of_lt hsize]
  omega

theorem Booted.serves {hhdmOffset : ℕ} (h : Booted hhdmOffset config) (maximum : ℕ) :
    Serves h.mapping maximum config ⟨[], ∅⟩ where
  toTracks := h.tracks
  sizes := by simp [h.live_eq]

/-- A call of the heap alone keeps the configuration tracked. -/
theorem Serves.step {maximum : ℕ} {event : HeapEvent} {after : HeapConfig}
    (h : Serves mapping maximum config heap) (hmaximum : maximum + 4135 < 2 ^ 64)
    (hcursor : 4040 < maximum → config.freelist.cursor < 255)
    (hstep : HeapStep mapping.hhdmOffset config event after)
    (hserved : Served maximum ⟨config, event, after⟩) :
    ∃ next, next.lost = heap.lost + event.released ∧ Serves mapping maximum after next := by
  cases hstep with
  | kmalloc hrun =>
    obtain ⟨hpos, hle, hgranted⟩ := hserved
    obtain ⟨hne, next, hlost, hnext⟩ := h.toTracks.kmalloc (Or.inl hpos)
      (fun _ ↦ (frameCounts_bounds (by omega)).1) hgranted hrun
    rw [if_neg hne]
    exact ⟨next, hlost, hnext, List.forall_mem_cons.mpr ⟨⟨hpos, hle⟩, h.sizes⟩⟩
  | kfree hlive hrun =>
    have hsize := h.sizes _ hlive
    have haligned := h.represents.pointer_not_aligned ((h.live_iff _).mp hlive) hsize.1
    obtain ⟨-, next, hlost, hnext⟩ := h.toTracks.kfree hlive haligned
      (fun hlarge ↦ hcursor (hlarge.trans_le hsize.2)) hrun
    exact ⟨next, hlost, hnext, fun other hother ↦ h.sizes other (List.mem_of_mem_erase hother)⟩
  | write hlive hroom => exact ⟨heap, rfl, h.toTracks.write hlive hroom, h.sizes⟩
  | allocateFrame hrun => exact hserved.elim
  | freeFrame howned hrun => exact hserved.elim

/-! ## A heap at boot -/

/-- A segment with enough frames grants what `kmalloc` asks for. -/
theorem granted_of_affords {state : AllocatorState} (hcount : 0 < frameCounts size)
    (h : Frames.Affords state.context.freelist (frameCounts size)) : Granted size state := by
  rw [Granted]
  split_ifs
  · exact h
  · obtain ⟨index, hindex, hlength⟩ := h
    exact Or.inr ⟨index, hindex, hcount.trans_le hlength⟩

/-- A small request for which a page has room is granted. -/
theorem granted_of_largest {state : AllocatorState} {page : Page}
    (h : Represents mapping state heap) (hpage : page ∈ heap.pages) (hsize : size ≤ 4040)
    (hlargest : size + 8 ≤ page.largest) : Granted size state := by
  rw [Granted, if_neg (not_lt.mpr hsize)]
  exact Or.inl (h.hasPage_iff.mpr ⟨page, hpage, hlargest⟩)

/-- Two usable frames and no caller. -/
def bootedHeap : HeapConfig where
  state := Frames.twoFrames.state
  live := []
  owned := 0

theorem booted_bootedHeap : Booted 0 bootedHeap where
  sound := Frames.sound_twoFrames
  offset_aligned := rfl
  end_le frame hframe := by
    have hend := Frames.aligned_of_mem Frames.sound_twoFrames hframe
    omega
  heapPages_eq := rfl
  lock_eq := rfl
  live_eq := rfl
  owned_eq := rfl

theorem granted_bootedHeap : Granted 64 bootedHeap.state :=
  granted_of_affords (by decide) ⟨0, show 0 < _ by decide, by decide⟩

/-- The first `kmalloc` after boot. -/
theorem exists_firstBlock : ∃ pointer after, pointer ≠ 0 ∧ after.context.freelist.cursor = 1 ∧
    HeapStep 0 bootedHeap (.kmalloc 64 pointer) ⟨after, [givenBlock 64 pointer after], 0⟩ :=
  booted_bootedHeap.tracks.exists_kmalloc (Or.inl (by norm_num)) (fun _ ↦ by decide)
    granted_bootedHeap

/-- Every small request is granted after boot. -/
theorem granted_bootedHeap_of_le (hsize : size ≤ 4040) : Granted size bootedHeap.state := by
  have hcount : 0 < frameCounts size := (frameCounts_bounds (by omega)).1
  refine granted_of_affords hcount ⟨0, show 0 < _ by decide, ?_⟩
  rw [frameCounts_of_lt (by omega)]
  change (size + 4135) / 4096 ≤ 2
  omega

/-- The page of the first small `kmalloc` after boot. -/
theorem exists_firstPage_of_le (hpos : 0 < size) (hsize : size ≤ 4040) :
    ∃ pointer after base, ∃ hfit : (Page.fresh base).Fit [] ⟨base + 32, 4048⟩ [] size,
      HeapStep 0 bootedHeap (.kmalloc size pointer) ⟨after, [givenBlock size pointer after], 0⟩ ∧
        Tracks booted_bootedHeap.mapping ⟨after, [givenBlock size pointer after], 0⟩
          ⟨[(Page.fresh base).carve [] ⟨base + 32, 4048⟩ [] size hfit], ∅⟩ := by
  obtain ⟨pointer, after, next, -, hstep, hgiven, htracks⟩ :=
    booted_bootedHeap.tracks.exists_kmalloc_given (Or.inl hpos)
      (fun hlarge ↦ absurd hlarge (by omega)) (granted_bootedHeap_of_le hsize)
  obtain ⟨base, hfit, rfl⟩ := hgiven.first hsize
  exact ⟨pointer, after, base, hfit, hstep, htracks⟩

theorem exists_firstPage : ∃ pointer after base,
    ∃ hfit : (Page.fresh base).Fit [] ⟨base + 32, 4048⟩ [] 64,
      HeapStep 0 bootedHeap (.kmalloc 64 pointer) ⟨after, [givenBlock 64 pointer after], 0⟩ ∧
        Tracks booted_bootedHeap.mapping ⟨after, [givenBlock 64 pointer after], 0⟩
          ⟨[(Page.fresh base).carve [] ⟨base + 32, 4048⟩ [] 64 hfit], ∅⟩ :=
  exists_firstPage_of_le (by norm_num) (by norm_num)

theorem served_firstBlock {pointer maximum : ℕ} {after : HeapConfig} (hmaximum : 64 ≤ maximum) :
    Served maximum ⟨bootedHeap, .kmalloc 64 pointer, after⟩ :=
  ⟨by norm_num, hmaximum, granted_bootedHeap⟩

/-- The first call of `kmalloc` after boot, as a run. -/
theorem exists_firstRun : ∃ (pointer : ℕ) (after : AllocatorState)
    (taken : List (Taken HeapConfig HeapEvent)), pointer ≠ 0 ∧
      taken = [⟨bootedHeap, .kmalloc 64 pointer, ⟨after, [givenBlock 64 pointer after], 0⟩⟩] ∧
      Run (HeapStep 0) bootedHeap taken ⟨after, [givenBlock 64 pointer after], 0⟩ ∧
      (∀ maximum, 64 ≤ maximum → ∀ t ∈ taken, Served maximum t) ∧
      ∀ t ∈ taken, t.after.freelist.cursor ≤ 127 := by
  obtain ⟨pointer, after, hne, hcursor, hstep⟩ := exists_firstBlock
  refine ⟨pointer, after, _, hne, rfl, Run.nil.snoc _ hstep, fun maximum hmaximum t ht ↦ ?_,
    fun t ht ↦ ?_⟩
  · rw [List.mem_singleton.mp ht]
    exact served_firstBlock hmaximum
  · rw [List.mem_singleton.mp ht]
    exact hcursor.trans_le (by norm_num)

/-- The blocks that the first two calls of `kmalloc` for 64 bytes carve from a new page. -/
def twoBlocks (base : ℕ) : Block × Block :=
  (carvedBlock ⟨base + 32, 4048⟩ 64, carvedBlock ⟨base + 120, 3960⟩ 64)

theorem twoBlocks_ne (base : ℕ) : (twoBlocks base).1 ≠ (twoBlocks base).2 := by
  intro heq
  have hpointer := congrArg Block.pointer heq
  simp [twoBlocks, carvedBlock] at hpointer

/-- The first two calls of `kmalloc` after boot, and the page that they carve the blocks from. -/
structure TwoCalls where
  first : ℕ
  second : ℕ
  base : ℕ
  before : HeapConfig
  config : HeapConfig
  page : Page
  before_live : before.live = [givenBlock 64 first before.state]
  live_length : config.live.length = 2
  call : HeapStep 0 bootedHeap (.kmalloc 64 first) before
  call_again : HeapStep 0 before (.kmalloc 64 second) config
  served : Served 64 ⟨bootedHeap, .kmalloc 64 first, before⟩
  served_again : Served 64 ⟨before, .kmalloc 64 second, config⟩
  before_cursor : before.freelist.cursor = 1
  cursor : config.freelist.cursor = 1
  tracks : Tracks booted_bootedHeap.mapping config ⟨[page], ∅⟩
  nodes : page.nodes = [⟨base + 208, 3872⟩]
  largest : page.largest = 3872
  blocks : page.blocks = {(twoBlocks base).2, (twoBlocks base).1}

theorem exists_twoCalls : Nonempty TwoCalls := by
  obtain ⟨first, state, layout, -, hone, hgiven, htracks⟩ :=
    booted_bootedHeap.tracks.exists_kmalloc_given (Or.inl (by norm_num)) (fun _ ↦ by decide)
      granted_bootedHeap
  have hcursor : state.context.freelist.cursor = 1 :=
    (hgiven.provided (booted_bootedHeap.tracks.represents.withLock 1)).cursor_eq
  obtain ⟨base, hfit, rfl⟩ := hgiven.first (by norm_num)
  have hgranted := @granted_of_largest _ _ 64 _ _ htracks.represents (List.mem_singleton_self _)
    (by norm_num) (show 64 + 8 ≤ 3960 by norm_num)
  obtain ⟨second, state', layout, -, htwo, hgiven', htracks'⟩ :=
    htracks.exists_kmalloc_given (Or.inl (by norm_num)) (fun _ ↦ by decide) hgranted
  have hcursor' : state'.context.freelist.cursor = state.context.freelist.cursor :=
    (hgiven'.provided (htracks.represents.withLock 1)).cursor_eq
  obtain ⟨hfit', rfl⟩ := @Given.again _ _ _ _ _ _ _ ⟨base + 120, 3960⟩ hgiven' (by norm_num) rfl
    (show 64 + 8 ≤ 3960 by norm_num)
  exact ⟨{
    first, second, base
    before := _
    config := _
    page := _
    before_live := rfl
    live_length := rfl
    call := hone
    call_again := htwo
    served := served_firstBlock le_rfl
    served_again := ⟨by norm_num, le_rfl, hgranted⟩
    before_cursor := hcursor
    cursor := hcursor'.trans hcursor
    tracks := htracks'
    nodes := rfl
    largest := rfl
    blocks := rfl }⟩

namespace TwoCalls

variable (calls : TwoCalls)

def taken : List (Taken HeapConfig HeapEvent) :=
  [⟨bootedHeap, .kmalloc 64 calls.first, calls.before⟩,
    ⟨calls.before, .kmalloc 64 calls.second, calls.config⟩]

theorem forall_mem_taken {holds : Taken HeapConfig HeapEvent → Prop} :
    (∀ t ∈ calls.taken, holds t) ↔
      holds ⟨bootedHeap, .kmalloc 64 calls.first, calls.before⟩ ∧
        holds ⟨calls.before, .kmalloc 64 calls.second, calls.config⟩ := by
  rw [taken, List.forall_mem_cons, List.forall_mem_singleton]

theorem run_taken : Run (HeapStep 0) bootedHeap calls.taken calls.config :=
  (Run.nil.snoc _ calls.call).snoc _ calls.call_again

theorem served_taken : ∀ t ∈ calls.taken, Served 64 t :=
  calls.forall_mem_taken.mpr ⟨calls.served, calls.served_again⟩

theorem cursor_taken : ∀ t ∈ calls.taken, t.after.freelist.cursor = 1 :=
  calls.forall_mem_taken.mpr ⟨calls.before_cursor, calls.cursor⟩

theorem first_mem : (twoBlocks calls.base).1 ∈ calls.page.blocks := by
  rw [calls.blocks]
  exact Finset.mem_insert_of_mem (Finset.mem_singleton_self _)

theorem second_mem : (twoBlocks calls.base).2 ∈ calls.page.blocks := by
  rw [calls.blocks]
  exact Finset.mem_insert_self _ _

theorem serves : Serves booted_bootedHeap.mapping 4040 calls.config ⟨[calls.page], ∅⟩ := by
  refine ⟨calls.tracks, fun block hblock ↦ ?_⟩
  rcases (calls.tracks.live_iff block).mp hblock with hlarge | ⟨page, hpage, hmem⟩
  · exact absurd hlarge (Finset.notMem_empty _)
  · rw [List.mem_singleton.mp hpage, calls.blocks, Finset.mem_insert, Finset.mem_singleton] at hmem
    have hsize : block.size = 64 := by rcases hmem with rfl | rfl <;> rfl
    rw [hsize]
    norm_num

end TwoCalls

/-- Two blocks, the first of them freed, and a third block. -/
structure Reused (taken : List (Taken HeapConfig HeapEvent)) (final : HeapConfig) : Prop where
  run : Run (HeapStep 0) bootedHeap taken final
  length : taken.length = 4
  live_length : final.live.length = 2
  freed : ∃ t ∈ taken, ∃ block, t.label = .kfree block true
  served : ∀ t ∈ taken, Served 64 t
  cursor : ∀ t ∈ taken, t.after.freelist.cursor ≤ 127
  aligned : ∀ t ∈ taken, ∀ block ok, t.label = .kfree block ok →
    block.pointer % 4096 ≠ 0 ∧ block.size = 64

theorem exists_reused : ∃ taken final, Reused taken final := by
  obtain ⟨calls⟩ := exists_twoCalls
  obtain ⟨freed, hlive, haligned, hfree, hcursor, htracks⟩ :=
    calls.tracks.exists_release calls.first_mem (show 0 < 64 by norm_num)
  have hlargest : (calls.page.release _ calls.first_mem).largest = 3872 := calls.largest
  have hgranted := @granted_of_largest _ _ 64 _ _ htracks.represents (List.mem_singleton_self _)
    (by norm_num) (by rw [hlargest]; norm_num)
  obtain ⟨third, after, -, hcursor', hcall⟩ :=
    htracks.exists_kmalloc (Or.inl (by norm_num)) (fun _ ↦ by decide) hgranted
  refine ⟨_, _, (calls.run_taken.snoc _ hfree).snoc _ hcall, rfl, ?_, ?_, ?_, ?_, ?_⟩
  · rw [List.length_cons, List.length_erase_of_mem hlive, calls.live_length]
  · exact ⟨_, List.mem_append_left _ (List.mem_append_right _ (List.mem_singleton_self _)), _, rfl⟩
  · simp only [List.forall_mem_append, List.forall_mem_singleton]
    exact ⟨⟨calls.served_taken, trivial⟩, by norm_num, le_rfl, hgranted⟩
  · simp only [List.forall_mem_append, List.forall_mem_singleton]
    have hone := calls.cursor
    refine ⟨⟨fun t ht ↦ (calls.cursor_taken t ht).trans_le (by norm_num), ?_⟩, ?_⟩
    · exact hcursor.trans_le (by omega)
    · exact (hcursor'.trans hcursor).trans_le (by omega)
  · simp only [List.forall_mem_append, List.forall_mem_singleton, TwoCalls.forall_mem_taken]
    refine ⟨⟨⟨?_, ?_⟩, ?_⟩, ?_⟩
    · exact fun _ _ ↦ HeapEvent.noConfusion
    · exact fun _ _ ↦ HeapEvent.noConfusion
    · rintro block ok heq
      cases heq
      exact ⟨haligned, rfl⟩
    · exact fun _ _ ↦ HeapEvent.noConfusion

end Tracks

end SideHOS.Heap
