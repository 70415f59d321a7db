import SideHOS.Heap.Blocks

/-!
# What calls do to the heap and to memory

The outcomes of `kmalloc` and `kfree` in full: the page and the node that a small block is carved
from, the frames that a large block takes, and the bytes that change.  The modules on single
properties of the heap read off what they need.
-/

namespace SideHOS.Heap

open Kernel Linked Machine Machine.Word64 Machine.ByteMemory Sharing Sharing.Program

/-- The block that `kmalloc` handed out by answering `pointer`, with the size word it wrote. -/
def givenBlock (size pointer : ℕ) (after : AllocatorState) : Block :=
  ⟨pointer, size, load64 after.bytes (pointer - 8)⟩

theorem load64_of_givenBlock {size pointer : ℕ} {after : AllocatorState} {block : Block}
    (h : givenBlock size pointer after = block) :
    load64 after.bytes (pointer - 8) = block.word := by
  rw [← h, givenBlock]

/-- The pages that `kmalloc` carves from: those of the heap, or a new first page and those of the
heap, when none of their `largest` is large enough. -/
inductive Prepared (mapping : Mapping) (state : AllocatorState) (heap : Layout) (totalSize : ℕ) :
    AllocatorState → List Page → Prop
  | found : Prepared mapping state heap totalSize state heap.pages
  | fresh {frame : ℕ} {middle : AllocatorState}
      (hsmall : ∀ page ∈ heap.pages, page.largest < totalSize)
      (hallocated : Frames.Allocated state 1 frame middle) (hframe : frame ≠ 0)
      (hbytes : middle.bytes = Frames.heapPageImage state.bytes (frame + mapping.hhdmOffset)
        state.context.heapPages) :
      Prepared mapping state heap totalSize middle
        (Page.fresh (frame + mapping.hhdmOffset) :: heap.pages)

/-- What a `kmalloc` that answers a block has done: it carved the block from a page, or took
frames for it. -/
inductive Given (mapping : Mapping) (state : AllocatorState) (heap : Layout) (size : ℕ) :
    ℕ → AllocatorState → Layout → Prop
  | small {middle : AllocatorState} {pages front back : List Page} {page : Page}
      {before behind : List Node} {node : Node} (hsize : size ≤ 4040)
      (hprepared : Prepared mapping state heap (size + 8) middle pages)
      (hmiddle : Represents mapping middle { heap with pages := pages })
      (hpages : pages = front ++ page :: back) (hlargest : size + 8 ≤ page.largest)
      (hfit : page.Fit before node behind size) :
      Given mapping state heap size (node.address + 24)
        { middle with
          bytes := carvedBytes middle.bytes page before node behind size
          memoryLock := 0 }
        { heap with pages := front ++ page.carve before node behind size hfit :: back }
  | large {middle : AllocatorState} {frame : ℕ} (hsize : 4040 < size)
      (hcount : 0 < frameCounts size)
      (hallocated : Frames.Allocated state (frameCounts size) frame middle) (hframe : frame ≠ 0)
      (hbytes : middle.bytes = Frames.blockImage state.bytes (frame + mapping.hhdmOffset)
        (frameCounts size))
      (hheapPages : middle.context.heapPages = state.context.heapPages) :
      Given mapping state heap size (frame + mapping.hhdmOffset + 40)
        { middle with memoryLock := 0 }
        { heap with
          large := insert
            ⟨frame + mapping.hhdmOffset + 40, size, 4096 * frameCounts size - 40⟩ heap.large }

/-- What a `kfree` of a live block has done: it turned the block into a node of its page, or gave
its frames back. -/
inductive Reclaimed (mapping : Mapping) (state : AllocatorState) (heap : Layout) (block : Block) :
    AllocatorState → Layout → Prop
  | small {after : AllocatorState} {front back : List Page} {page : Page}
      (hpages : heap.pages = front ++ page :: back) (hblock : block ∈ page.blocks)
      (hcontext : after.context = state.context)
      (hnext : PageAt after.bytes (page.release block hblock))
      (htouches : Touches page block.slot state.bytes after.bytes) :
      Reclaimed mapping state heap block after
        { heap with pages := front ++ page.release block hblock :: back }
  | large {after : AllocatorState} (hblock : block ∈ heap.large)
      (hbytes : after.bytes = state.bytes)
      (hheapPages : after.context.heapPages = state.context.heapPages)
      (hsound : Frames.Sound after.context.freelist) {frame : ℕ}
      (hframe : mapped mapping.hhdmOffset
        (strided 4096 frame (frameCounts block.size)) = block.frames)
      (hfree : Frames.free after.context.freelist =
        Frames.free state.context.freelist + strided 4096 frame (frameCounts block.size)) :
      Reclaimed mapping state heap block after { heap with large := heap.large.erase block }

/-- What a `kmalloc` that was granted its frames has done, with `entries` in the table before. -/
structure Provided (mapping : Mapping) (entries : ℕ) (heap : Layout) (size pointer : ℕ)
    (after : AllocatorState) (next : Layout) : Prop where
  represents : Represents mapping after next
  cursor_eq : after.context.freelist.cursor = entries
  lock_eq : after.memoryLock = 0
  pointer_ne : pointer ≠ 0
  new : ¬ heap.Live (givenBlock size pointer after)
  live_iff : ∀ block, next.Live block ↔ block = givenBlock size pointer after ∨ heap.Live block
  lost_eq : next.lost = heap.lost

/-- What a `kfree` of a live block has done, with `entries` in the table before. -/
structure Returned (mapping : Mapping) (entries : ℕ) (heap : Layout) (block : Block)
    (after : AllocatorState) (next : Layout) : Prop where
  represents : Represents mapping after next
  cursor_eq : after.context.freelist.cursor = entries + if 4040 < block.size then 1 else 0
  lock_eq : after.memoryLock = 0
  live_iff : ∀ other, next.Live other ↔ heap.Live other ∧ other ≠ block
  lost_eq : next.lost = heap.lost + if 4040 < block.size then 0 else 1

section Effects

variable {mapping : Mapping} {state middle after : AllocatorState} {heap next : Layout}
  {page : Page} {pages : List Page} {block : Block} {size pointer totalSize frame count x : ℕ}

/-- The layout does not depend on the lock. -/
theorem Represents.withLock (h : Represents mapping state heap) (lock : ℕ) :
    Represents mapping { state with memoryLock := lock } heap :=
  ⟨h.sound, h.frames_eq, h.chain, h.pages, h.large, h.words⟩

/-- Frames taken from the table are mapped without wrap-around. -/
theorem Represents.taken_facts (h : Represents mapping state heap) (hcount : 0 < count)
    (hallocated : Frames.Allocated state count frame after) (hframe : frame ≠ 0) :
    strided 4096 frame count ≤ Frames.free state.context.freelist ∧
      add frame mapping.hhdmOffset = frame + mapping.hhdmOffset := by
  have hle : strided 4096 frame count ≤ Frames.free state.context.freelist := by
    rw [← hallocated.free_eq hframe]
    exact Multiset.le_add_left _ _
  have hword := (h.free_facts hcount hle).2
  exact ⟨hle, add_of_lt (by omega)⟩

/-- The cell of a live block is not written when frames are taken. -/
theorem Represents.outside_taken (h : Represents mapping state heap) (hcount : 0 < count)
    (hallocated : Frames.Allocated state count frame after) (hframe : frame ≠ 0)
    (hlive : heap.Live block) (hx : block.cell.Holds x) :
    ¬ Extent.Holds ⟨frame + mapping.hhdmOffset, 4096 * count⟩ x :=
  (h.cell_apart_free hlive hcount (h.taken_facts hcount hallocated hframe).1).not_holds hx

theorem Prepared.cursor_eq (h : Prepared mapping state heap totalSize middle pages) :
    middle.context.freelist.cursor = state.context.freelist.cursor := by
  cases h with
  | found => rfl
  | fresh _ hallocated => exact hallocated.cursor_eq

/-- Preparing a page makes no block. -/
theorem Prepared.live_iff (h : Prepared mapping state heap totalSize middle pages) :
    Layout.Live { heap with pages := pages } block ↔ heap.Live block := by
  cases h with
  | found => exact Iff.rfl
  | fresh => simp [Layout.Live, Page.fresh]

theorem Prepared.lost_eq (h : Prepared mapping state heap totalSize middle pages) :
    Layout.lost { heap with pages := pages } = heap.lost := by
  cases h with
  | found => rfl
  | fresh => simp [Layout.lost, Page.fresh]

theorem Prepared.untouched (h : Prepared mapping state heap totalSize middle pages)
    (hheap : Represents mapping state heap) (hlive : heap.Live block) (hx : block.cell.Holds x) :
    middle.bytes x = state.bytes x := by
  cases h with
  | found => rfl
  | fresh hsmall hallocated hframe hbytes =>
    have hle := (hheap.taken_facts one_pos hallocated hframe).1
    rw [hbytes]
    exact heapPageImage_of_outside (hheap.free_facts one_pos hle).2
      (hheap.outside_taken one_pos hallocated hframe hlive hx)

/-! ## `kmalloc` -/

theorem Layout.live_middle {front back : List Page} (large : Finset Block) :
    Layout.Live ⟨front ++ page :: back, large⟩ block ↔
      block ∈ page.blocks ∨ block ∈ large ∨ ∃ other, (other ∈ front ∨ other ∈ back) ∧
        block ∈ other.blocks := by
  simp only [Layout.Live, mem_middle, or_and_right, exists_or, exists_eq_left]
  exact or_left_comm

theorem Layout.lost_middle {front back : List Page} (large : Finset Block) :
    Layout.lost ⟨front ++ page :: back, large⟩ =
      page.lost + ((front.map Page.lost).sum + (back.map Page.lost).sum) := by
  simp only [Layout.lost, List.map_append, List.map_cons, List.sum_append, List.sum_cons]
  omega

/-- A block that `kmalloc` carves from a page of a represented heap is new. -/
theorem Represents.carved_new (h : Represents mapping state heap) (hpage : page ∈ heap.pages)
    {front back : List Node} {node : Node} (hfit : page.Fit front node back size) :
    ¬ heap.Live (carvedBlock node size) := by
  intro hlive
  have hapart := h.cell_apart_node hlive hpage hfit.mem
  have hwithin := carved_within hfit.le_length
  simp only [Block.cell, Block.slot, carvedBlock, Extent.Apart, Extent.Within, Extent.stop]
    at hapart hwithin
  omega

/-- Carving a block from a page of a represented heap. -/
theorem Represents.carve (h : Represents mapping state heap) {front back : List Page}
    (hpages : heap.pages = front ++ page :: back) {before behind : List Node} {node : Node}
    (hfit : page.Fit before node behind size) :
    Represents mapping
        { state with
          bytes := carvedBytes state.bytes page before node behind size
          memoryLock := 0 }
        { heap with pages := front ++ page.carve before node behind size hfit :: back } ∧
      givenBlock size (node.address + 24)
        { state with
          bytes := carvedBytes state.bytes page before node behind size
          memoryLock := 0 } = carvedBlock node size := by
  have hmem : page ∈ heap.pages := mem_of_eq_middle hpages
  have hword := (h.page_facts hmem).2.2
  have hnode := page.ordered.within node hfit.mem
  have hnext := pageAt_carve (h.pages page hmem) hword hfit
  have htouches : Touches page (carvedBlock node size).slot state.bytes
      (carvedBytes state.bytes page before node behind size) := touches_carvedBytes hfit
  have hslot : (carvedBlock node size).slot.Within page.extent :=
    (carved_within hfit.le_length).trans (page.node_within hfit.mem)
  refine ⟨h.replace hpages
      (show (page.carve before node behind size hfit).base = page.base from rfl)
    hnext (fun x hx ↦ htouches.outside hslot hx) (htouches.pageNext_eq ?_ hword), ?_⟩
  · simp only [Block.slot, carvedBlock]
    omega
  · exact Block.ext rfl rfl (hnext.words (carvedBlock node size) (Finset.mem_insert_self _ _))

/-- The block of its own frames that `kmalloc` made. -/
theorem Represents.giveLarge (h : Represents mapping state heap) (hsize : 4040 < size)
    (hcount : 0 < frameCounts size)
    (hallocated : Frames.Allocated state (frameCounts size) frame middle) (hframe : frame ≠ 0)
    (hbytes : middle.bytes = Frames.blockImage state.bytes (frame + mapping.hhdmOffset)
      (frameCounts size))
    (hheapPages : middle.context.heapPages = state.context.heapPages)
    (hblock : block = ⟨frame + mapping.hhdmOffset + 40, size, 4096 * frameCounts size - 40⟩) :
    Represents mapping { middle with memoryLock := 0 }
        { heap with large := insert block heap.large } ∧
      givenBlock size (frame + mapping.hhdmOffset + 40) { middle with memoryLock := 0 } = block ∧
      ¬ heap.Live block := by
  obtain ⟨-, hmiddle⟩ := h.addLarge hsize hcount hallocated.sound (hallocated.free_eq hframe)
    hbytes hheapPages hblock
  have hle := (h.taken_facts hcount hallocated hframe).1
  refine ⟨hmiddle.withLock 0, ?_, fun hlive ↦ ?_⟩
  · have hword := hmiddle.words block (Finset.mem_insert_self _ _)
    rw [hblock] at hword ⊢
    exact Block.ext rfl rfl hword
  · have hapart := h.cell_apart_free hlive hcount hle
    simp only [hblock, Block.cell, Extent.Apart, Extent.stop] at hapart
    omega

/-- The call has done what it should: a new live block, in a represented heap. -/
theorem Given.provided (h : Given mapping state heap size pointer after next)
    (hheap : Represents mapping state heap) :
    Provided mapping state.context.freelist.cursor heap size pointer after next := by
  cases h with
  | @small middle pages front back page before behind node hsize hprepared hmiddle hpages _ hfit =>
    have hmem : page ∈ pages := mem_of_eq_middle hpages
    obtain ⟨hnext, hgiven⟩ := hmiddle.carve hpages hfit
    refine ⟨hnext, hprepared.cursor_eq, rfl, Nat.succ_ne_zero _, ?_, fun block ↦ ?_, ?_⟩
    · rw [hgiven, ← hprepared.live_iff]
      exact hmiddle.carved_new hmem hfit
    · rw [hgiven, ← hprepared.live_iff, hpages, Layout.live_middle, Layout.live_middle]
      simp only [Page.carve, Finset.mem_insert, or_assoc]
    · rw [← hprepared.lost_eq, hpages, Layout.lost_middle, Layout.lost_middle]
      rfl
  | large hsize hcount hallocated hframe hbytes hheapPages =>
    obtain ⟨hnext, hgiven, hnew⟩ :=
      hheap.giveLarge hsize hcount hallocated hframe hbytes hheapPages rfl
    refine ⟨hnext, hallocated.cursor_eq, rfl, Nat.succ_ne_zero _, hgiven ▸ hnew, fun block ↦ ?_,
      rfl⟩
    rw [hgiven]
    simp only [Layout.Live, Finset.mem_insert, or_assoc]

/-- `kmalloc` writes to no cell of a live block. -/
theorem Given.untouched (h : Given mapping state heap size pointer after next)
    (hheap : Represents mapping state heap) (hlive : heap.Live block) (hx : block.cell.Holds x) :
    after.bytes x = state.bytes x := by
  cases h with
  | @small middle pages front back page before behind node hsize hprepared hmiddle hpages _ hfit =>
    have hmem : page ∈ pages := mem_of_eq_middle hpages
    have hlive' := hprepared.live_iff.mpr hlive
    have hheader := (hmiddle.cell_apart_header hlive' hmem).not_holds hx
    rw [← hprepared.untouched hheap hlive hx]
    refine touches_carvedBytes hfit x (fun hholds ↦ hheader ⟨hholds.1, hholds.2.trans_le ?_⟩)
      (fun other hother ↦ (hmiddle.cell_apart_node hlive' hmem hother).not_holds hx) fun hholds ↦ ?_
    · simp only [Page.header, Extent.stop]
      omega
    · exact (hmiddle.cell_apart_node hlive' hmem hfit.mem).not_holds hx
        ((carved_within hfit.le_length).holds hholds)
  | large hsize hcount hallocated hframe hbytes hheapPages =>
    obtain ⟨hne, hword⟩ := hheap.free_facts hcount (hheap.taken_facts hcount hallocated hframe).1
    rw [hbytes]
    exact blockImage_of_outside hcount hword hne
      (hheap.outside_taken hcount hallocated hframe hlive hx)

/-- What `kmalloc` keeps of one page it keeps of all. -/
theorem Given.forall_pages {P : Page → Prop} (h : Given mapping state heap size pointer after next)
    (hkept : Kept P) (hheap : ∀ page ∈ heap.pages, P page) : ∀ page ∈ next.pages, P page := by
  cases h with
  | @small middle pages front back page before behind node hsize hprepared hmiddle hpages hlargest
      hfit =>
    have hprior : ∀ page ∈ pages, P page := by
      cases hprepared with
      | found => exact hheap
      | fresh => exact List.forall_mem_cons.mpr ⟨hkept.fresh _, hheap⟩
    rw [hpages, List.forall_mem_append, List.forall_mem_cons] at hprior
    obtain ⟨hfront, hpage, hback⟩ := hprior
    exact List.forall_mem_append.mpr
      ⟨hfront, List.forall_mem_cons.mpr ⟨hkept.carve hfit hpage, hback⟩⟩
  | large => exact hheap

/-- A list with one element splits in one way. -/
theorem eq_of_singleton {α : Type} {first second : α} {front back : List α}
    (h : [first] = front ++ second :: back) : front = [] ∧ second = first ∧ back = [] := by
  cases front with
  | nil =>
    obtain ⟨rfl, rfl⟩ := List.cons.inj h
    exact ⟨rfl, rfl, rfl⟩
  | cons head tail => simp at h

/-- The first small block of a heap is carved from a new page. -/
theorem Given.first (h : Given mapping state ⟨[], ∅⟩ size pointer after next)
    (hsize : size ≤ 4040) :
    ∃ base, ∃ hfit : (Page.fresh base).Fit [] ⟨base + 32, 4048⟩ [] size,
      next = ⟨[(Page.fresh base).carve [] ⟨base + 32, 4048⟩ [] size hfit], ∅⟩ := by
  cases h with
  | @small middle pages front back page before behind node _ hprepared hmiddle hpages hlargest
      hfit =>
    cases hprepared with
    | found => simp at hpages
    | fresh =>
      obtain ⟨rfl, rfl, rfl⟩ := eq_of_singleton hpages
      obtain ⟨rfl, rfl, rfl⟩ := eq_of_singleton hfit.nodes_eq
      exact ⟨_, hfit, rfl⟩
  | large hlarge => exact absurd hlarge (not_lt.mpr hsize)

/-- A small block that fits into the only node of the only page is carved from it. -/
theorem Given.again {node : Node} (h : Given mapping state ⟨[page], ∅⟩ size pointer after next)
    (hsize : size ≤ 4040) (hnodes : page.nodes = [node]) (hlargest : size + 8 ≤ page.largest) :
    ∃ hfit : page.Fit [] node [] size, next = ⟨[page.carve [] node [] size hfit], ∅⟩ := by
  cases h with
  | @small middle pages front back other before behind inner _ hprepared hmiddle hpages _ hfit =>
    cases hprepared with
    | found =>
      obtain ⟨rfl, rfl, rfl⟩ := eq_of_singleton hpages
      obtain ⟨rfl, rfl, rfl⟩ := eq_of_singleton (hnodes.symm.trans hfit.nodes_eq)
      exact ⟨hfit, rfl⟩
    | fresh hsmall =>
      exact absurd (hsmall page (List.mem_singleton_self _)) (not_lt.mpr hlargest)
  | large hlarge => exact absurd hlarge (not_lt.mpr hsize)

/-! ## `kfree` -/

/-- A small block is not large. -/
theorem Page.size_le_small (hblock : block ∈ page.blocks) : block.size ≤ 4040 := by
  have hle := page.size_le block hblock
  have hwithin := page.blocks_within block hblock
  simp only [Block.slot, Extent.stop] at hwithin
  omega

/-- The large blocks are the live blocks larger than a page serves. -/
theorem Represents.mem_large_iff (h : Represents mapping state heap) :
    block ∈ heap.large ↔ heap.Live block ∧ 4040 < block.size := by
  constructor
  · intro hblock
    exact ⟨Or.inl hblock, (h.large block hblock).size_gt⟩
  · rintro ⟨hlarge | ⟨page, -, hblock⟩, hsize⟩
    · exact hlarge
    · exact absurd hsize (not_lt.mpr (Page.size_le_small hblock))

/-- A block is in one page only. -/
theorem Represents.not_mem_other (h : Represents mapping state heap) {front back : List Page}
    {other : Page} (hpages : heap.pages = front ++ page :: back) (hblock : block ∈ page.blocks)
    (hother : other ∈ front ∨ other ∈ back) : block ∉ other.blocks := by
  intro hmem
  have hapart := ((h.pages_apart hpages hother).mono_left (Page.cell_within hmem)).mono_right
    (Page.cell_within hblock)
  simp only [Block.cell, Extent.Apart, Extent.stop] at hapart
  omega

/-- A block of the only page is turned into a node of it. -/
theorem Reclaimed.single (h : Reclaimed mapping state ⟨[page], ∅⟩ block after next)
    (hblock : block ∈ page.blocks) : next = ⟨[page.release block hblock], ∅⟩ := by
  cases h with
  | small hpages =>
    obtain ⟨rfl, rfl, rfl⟩ := eq_of_singleton hpages
    rfl
  | large hlarge => exact absurd hlarge (Finset.notMem_empty _)

/-- Turning a block of a represented heap into a node. -/
theorem Represents.release (h : Represents mapping state heap) {front back : List Page}
    (hpages : heap.pages = front ++ page :: back) (hblock : block ∈ page.blocks) {bytes : Memory}
    (hnext : PageAt bytes (page.release block hblock))
    (htouches : Touches page block.slot state.bytes bytes) (lock : ℕ) :
    Represents mapping { state with bytes := bytes, memoryLock := lock }
      { heap with pages := front ++ page.release block hblock :: back } := by
  have hmem : page ∈ heap.pages := mem_of_eq_middle hpages
  have hwithin := page.blocks_within block hblock
  refine h.replace hpages (show (page.release block hblock).base = page.base from rfl) hnext
    (fun x hx ↦ htouches.outside (page.block_within hblock) hx) (htouches.pageNext_eq ?_
      (h.page_facts hmem).2.2)
  simp only [Block.slot]
  omega

/-- The call has done what it should: the block is gone, and the heap is represented. -/
theorem Reclaimed.returned (h : Reclaimed mapping state heap block after next)
    (hheap : Represents mapping state heap) (hlock : after.memoryLock = 0)
    (hcursor : after.context.freelist.cursor =
      state.context.freelist.cursor + if 4040 < block.size then 1 else 0) :
    Returned mapping state.context.freelist.cursor heap block after next := by
  cases h with
  | @small front back page hpages hblock hcontext hnext htouches =>
    have hafter : after = { state with bytes := after.bytes, memoryLock := after.memoryLock } :=
      AllocatorState.ext rfl hcontext rfl
    have hrepresents := hheap.release hpages hblock hnext htouches after.memoryLock
    rw [← hafter] at hrepresents
    have hlarge : block ∉ heap.large := fun hlarge ↦
      absurd (hheap.large block hlarge).size_gt (not_lt.mpr (Page.size_le_small hblock))
    have hheapEq : heap = ⟨front ++ page :: back, heap.large⟩ := by rw [← hpages]
    refine ⟨hrepresents, hcursor, hlock, fun other ↦ ?_, ?_⟩
    · rw [hheapEq, Layout.live_middle, Layout.live_middle]
      simp only [Page.release, Finset.mem_erase]
      constructor
      · rintro (⟨hne, hother⟩ | hother | ⟨other', hside, hother⟩)
        · exact ⟨Or.inl hother, hne⟩
        · exact ⟨Or.inr (Or.inl hother), fun heq ↦ hlarge (heq ▸ hother)⟩
        · exact ⟨Or.inr (Or.inr ⟨other', hside, hother⟩), fun heq ↦
            hheap.not_mem_other hpages hblock hside (heq ▸ hother)⟩
      · rintro ⟨hother | hother, hne⟩
        · exact Or.inl ⟨hne, hother⟩
        · exact Or.inr hother
    · rw [hheapEq, Layout.lost_middle, Layout.lost_middle,
        if_neg (not_lt.mpr (Page.size_le_small hblock))]
      simp only [Page.release]
      omega
  | large hblock hbytes hheapPages hsound hframe hfree =>
    have hsize := (hheap.large block hblock).size_gt
    refine ⟨hheap.freeLarge hblock hframe hsound hfree hbytes hheapPages, hcursor, hlock,
      fun other ↦ ?_, by rw [if_pos hsize]; rfl⟩
    have hapart (page : Page) (hpage : page ∈ heap.pages) : block ∉ page.blocks := fun hmem ↦
      absurd hsize (not_lt.mpr (Page.size_le_small hmem))
    simp only [Layout.Live, Finset.mem_erase]
    constructor
    · rintro (⟨hne, hother⟩ | ⟨page, hpage, hother⟩)
      · exact ⟨Or.inl hother, hne⟩
      · exact ⟨Or.inr ⟨page, hpage, hother⟩, fun heq ↦ hapart page hpage (heq ▸ hother)⟩
    · rintro ⟨hother | hother, hne⟩
      · exact Or.inl ⟨hne, hother⟩
      · exact Or.inr hother

/-- `kfree` writes to no cell of another live block. -/
theorem Reclaimed.untouched (h : Reclaimed mapping state heap block after next)
    (hheap : Represents mapping state heap) {other : Block} (hlive : heap.Live other)
    (hne : other ≠ block) (hx : other.cell.Holds x) : after.bytes x = state.bytes x := by
  cases h with
  | @small front back page hpages hblock hcontext hnext htouches =>
    have hmem : page ∈ heap.pages := mem_of_eq_middle hpages
    have hheader := (hheap.cell_apart_header hlive hmem).not_holds hx
    refine htouches x (fun hholds ↦ hheader ⟨hholds.1, hholds.2.trans_le ?_⟩)
      (fun node hnode ↦ (hheap.cell_apart_node hlive hmem hnode).not_holds hx) fun hholds ↦ ?_
    · simp only [Page.header, Extent.stop]
      omega
    · exact (hheap.cell_apart_slot hlive hmem hblock hne).not_holds hx hholds
  | large hblock hbytes => exact congrFun hbytes x

end Effects

end SideHOS.Heap
