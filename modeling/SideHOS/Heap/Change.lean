import SideHOS.Heap.Represent

/-!
# Heap layouts under change

Besides carving from a page and releasing into one, four things happen to a heap: a frame becomes
a new first page, a run of frames becomes a large block, a large block's frames go back to the
table, and the owner of a block writes to it.  Each keeps the state a representation of the
layout changed accordingly.
-/

namespace SideHOS.Heap

open Kernel Linked Machine Machine.Word64 Machine.ByteMemory Sharing Sharing.Program

section Image

variable {bytes : Memory} {base count heapPages : ℕ}

/-- The fresh page's bytes with every address written out. -/
theorem heapPageImage_eq (hword : base + 4096 ≤ 2 ^ 64) :
    Frames.heapPageImage bytes base heapPages =
      store64 (store64 (store64 (store64 (store64 (fill bytes base 4096 0) (base + 32) 4048)
        (base + 40) 0) base (base + 32)) (base + 16) 4048) (base + 24) heapPages := by
  have hnode : add base 32 = base + 32 := add_of_lt (by omega)
  have hnext : add (base + 32) 8 = base + 40 := add_of_lt (by omega)
  have hlargest : add base 16 = base + 16 := add_of_lt (by omega)
  have hlink : add base 24 = base + 24 := add_of_lt (by omega)
  simp only [Frames.heapPageImage, sizeofHeapPage, hnode, hnext, hlargest, hlink,
    Frames.memsetBytes_eq_fill (show base + 0 + 4096 ≤ 2 ^ 64 by omega), add_zero]

theorem heapPageImage_of_outside (hword : base + 4096 ≤ 2 ^ 64) {x : ℕ}
    (hx : ¬ Extent.Holds ⟨base, 4096⟩ x) :
    Frames.heapPageImage bytes base heapPages x = bytes x := by
  simp only [Extent.Holds, Extent.stop] at hx
  rw [heapPageImage_eq hword, store64_of_outside (by omega), store64_of_outside (by omega),
    store64_of_outside (by omega), store64_of_outside (by omega), store64_of_outside (by omega),
    fill_of_outside (by omega)]

/-- The bytes of a fresh page represent it. -/
theorem pageAt_fresh (hword : base + 4096 ≤ 2 ^ 64) :
    PageAt (Frames.heapPageImage bytes base heapPages) (Page.fresh base) := by
  have hnext : add (base + 32) 8 = base + 40 := add_of_lt (by omega)
  rw [heapPageImage_eq hword]
  refine ⟨nodesAt_cons.mpr ⟨?_, Nat.succ_ne_zero _, ?_, nodesAt_nil.mpr ?_⟩, ?_,
    by simp [Page.fresh]⟩
  · simp (disch := omega) only [Page.fresh, load64_store64_of_apart, load64_store64_same]
  · simp (disch := omega) only [load64_store64_of_apart, load64_store64_same]
  · simp (disch := omega) only [nodeNext, hnext, load64_store64_of_apart, load64_store64_same]
  · simp (disch := omega) only [Page.fresh, load64_store64_of_apart, load64_store64_same]

theorem pageNext_fresh (hword : base + 4096 ≤ 2 ^ 64) (hpages : heapPages < 2 ^ 64) :
    pageNext (Frames.heapPageImage bytes base heapPages) base = heapPages := by
  have hlink : add base 24 = base + 24 := add_of_lt (by omega)
  rw [heapPageImage_eq hword, pageNext, hlink, load64_store64_same hpages]

/-- The bytes of a run of frames for one block, with every address written out. -/
theorem blockImage_eq (hcount : 0 < count) (hword : base + 4096 * count ≤ 2 ^ 64)
    (hbase : base ≠ 0) :
    Frames.blockImage bytes base count =
      store64 (store64 (store64 (fill bytes base (4096 * count) 0) (base + 32)
        (4096 * count - 40)) base 0) (base + 16) 0 := by
  have hmul : mul 4096 count = 4096 * count := mul_of_lt (by omega)
  have hheader : add base 32 = base + 32 := add_of_lt (by omega)
  have hlargest : add base 16 = base + 16 := add_of_lt (by omega)
  have hfirst : sub (4096 * count) 32 = 4096 * count - 32 := sub_of_le (by omega) (by omega)
  have hsecond : sub (4096 * count - 32) 8 = 4096 * count - 40 := by
    rw [sub_of_le (by omega) (by omega)]
    omega
  simp only [Frames.blockImage, size4KB, sizeofHeapPage, sizeofU64, hmul, hheader, hlargest,
    hfirst, hsecond,
    Frames.memsetBytes_eq_fill (show base + 0 + 4096 * count ≤ 2 ^ 64 by omega), add_zero]

theorem blockImage_of_outside (hcount : 0 < count) (hword : base + 4096 * count ≤ 2 ^ 64)
    (hbase : base ≠ 0) {x : ℕ} (hx : ¬ Extent.Holds ⟨base, 4096 * count⟩ x) :
    Frames.blockImage bytes base count x = bytes x := by
  simp only [Extent.Holds, Extent.stop] at hx
  rw [blockImage_eq hcount hword hbase, store64_of_outside (by omega),
    store64_of_outside (by omega), store64_of_outside (by omega), fill_of_outside (by omega)]

/-- The size word of a new large block, also where its frames wrap around. -/
theorem load64_blockImage (hcount : 0 < count) (hlength : 4096 * count < 2 ^ 64)
    (hbase : base + 40 ≤ 2 ^ 64) :
    load64 (Frames.blockImage bytes base count) (base + 32) = 4096 * count - 40 := by
  have hheader : add base 32 = base + 32 := add_of_lt (by omega)
  have hlargest : add base 16 = base + 16 := add_of_lt (by omega)
  have htotal : mul 4096 count = 4096 * count := mul_of_lt hlength
  have hfirst : sub (4096 * count) 32 = 4096 * count - 32 := sub_of_le (by omega) hlength
  have hsecond : sub (4096 * count - 32) 8 = 4096 * count - 40 := sub_of_le (by omega) (by omega)
  simp only [Frames.blockImage, sizeofHeapPage, sizeofU64, size4KB, hheader, hlargest, htotal,
    hfirst, hsecond]
  rw [load64_store64_of_apart (by omega), load64_store64_of_apart (by omega),
    load64_store64_same (by omega)]

end Image

section Layout

variable {mapping : Mapping} {state next : AllocatorState} {heap : Layout} {page : Page}
  {block : Block} {after : Memory} {region : Extent}

/-- Memory that changes only within a region apart from the heap represents the same pages and
large blocks. -/
structure Elsewhere (heap : Layout) (bytes after : Memory) : Prop where
  pages : ∀ page ∈ heap.pages,
    PageAt after page ∧ pageNext after page.base = pageNext bytes page.base
  words : ∀ block ∈ heap.large, load64 after (block.pointer - 8) = block.word

theorem Represents.elsewhere (h : Represents mapping state heap)
    (hpages : ∀ page ∈ heap.pages, page.extent.Apart region)
    (hlarge : ∀ block ∈ heap.large, Extent.Apart ⟨block.pointer - 8, 8⟩ region)
    (houtside : ∀ x, ¬ region.Holds x → after x = state.bytes x) :
    Elsewhere heap state.bytes after := by
  refine ⟨fun page hpage ↦ ?_, fun block hblock ↦ ?_⟩
  · have hword := (h.page_facts hpage).2.2
    have hkept (x : ℕ) (hx : page.extent.Holds x) : after x = state.bytes x :=
      houtside x ((hpages page hpage).not_holds hx)
    have hadd : add page.base 24 = page.base + 24 := add_of_lt (by omega)
    refine ⟨(h.pages page hpage).congr hword hkept, ?_⟩
    simp only [pageNext, hadd]
    refine load64_congr fun x hlow hhigh ↦ hkept x ⟨?_, ?_⟩
    · simp only [Page.extent]
      omega
    · simp only [Page.extent, Extent.stop]
      omega
  · rw [← h.words block hblock]
    exact load64_congr fun x hlow hhigh ↦
      houtside x ((hlarge block hblock).not_holds ⟨hlow, hhigh⟩)

theorem Represents.link (h : Represents mapping state heap)
    (hpages : ∀ page ∈ heap.pages, pageNext after page.base = pageNext state.bytes page.base) :
    Chain 0 (pageNext after) state.context.heapPages (heap.pages.map Page.base) :=
  h.chain.congr fun cell hcell ↦ by
    obtain ⟨page, hpage, rfl⟩ := List.mem_map.mp hcell
    exact hpages page hpage

theorem Represents.heapPages_lt (h : Represents mapping state heap) :
    state.context.heapPages < 2 ^ 64 := by
  have hchain := h.chain
  cases hpages : heap.pages with
  | nil =>
    rw [hpages] at hchain
    have hzero : state.context.heapPages = 0 := hchain
    omega
  | cons page pages =>
    rw [hpages] at hchain
    obtain ⟨hhead, -, -⟩ := hchain
    have hmem : page ∈ heap.pages := by
      rw [hpages]
      exact List.mem_cons_self
    have hword := h.page_facts hmem
    omega

/-- Where a run of free frames is mapped. -/
theorem Represents.free_facts (h : Represents mapping state heap) {frame count : ℕ}
    (hcount : 0 < count) (hfree : strided 4096 frame count ≤ Frames.free state.context.freelist) :
    frame + mapping.hhdmOffset ≠ 0 ∧ frame + mapping.hhdmOffset + 4096 * count ≤ 2 ^ 64 := by
  have hfacts (k : ℕ) (hk : k < count) : frame + 4096 * k + mapping.hhdmOffset ≠ 0 ∧
      frame + 4096 * k + mapping.hhdmOffset + 4096 ≤ 2 ^ 64 := by
    refine (mapping.mem_mapped ?_).2
    rw [← h.frames_eq]
    refine Multiset.mem_add.mpr (Or.inl (mem_mapped.mpr ⟨_, ?_, rfl⟩))
    exact Multiset.mem_of_le hfree (mem_strided.mpr ⟨k, hk, rfl⟩)
  have hfirst := hfacts 0 hcount
  have hlast := hfacts (count - 1) (by omega)
  omega

/-- Writing to free frames leaves the heap alone. -/
theorem Represents.elsewhere_free (h : Represents mapping state heap) {frame count : ℕ}
    (hcount : 0 < count) (hfree : strided 4096 frame count ≤ Frames.free state.context.freelist)
    (houtside : ∀ x, ¬ Extent.Holds ⟨frame + mapping.hhdmOffset, 4096 * count⟩ x →
      after x = state.bytes x) : Elsewhere heap state.bytes after := by
  refine h.elsewhere (fun page hpage ↦ ?_) (fun block hblock ↦ ?_) houtside
  · exact (h.free_apart hfree (strided_le_of_mem (Layout.base_mem hpage))
      (h.page_facts hpage).1 hcount one_pos).symm
  · exact (h.free_apart hfree (Layout.large_le hblock) (h.large_facts hblock).1 hcount
      (h.large block hblock).count_pos).symm.mono_left (h.word_within hblock)

/-- A free frame becomes the first page. -/
theorem Represents.addPage (h : Represents mapping state heap) {frame : ℕ}
    (hsound : Frames.Sound next.context.freelist)
    (hfree : Frames.free next.context.freelist + {frame} = Frames.free state.context.freelist)
    (hbytes : next.bytes = Frames.heapPageImage state.bytes (frame + mapping.hhdmOffset)
      state.context.heapPages)
    (hpages : next.context.heapPages = frame + mapping.hhdmOffset) :
    Represents mapping next
      { heap with pages := Page.fresh (frame + mapping.hhdmOffset) :: heap.pages } := by
  have hle : strided 4096 frame 1 ≤ Frames.free state.context.freelist := by
    rw [← hfree, strided_one]
    exact Multiset.le_add_left _ _
  obtain ⟨hne, hword⟩ := h.free_facts one_pos hle
  have helsewhere : Elsewhere heap state.bytes next.bytes :=
    h.elsewhere_free one_pos hle fun x hx ↦ by
      rw [hbytes]
      exact heapPageImage_of_outside hword hx
  refine ⟨hsound, ?_, ?_, ?_, h.large, helsewhere.words⟩
  · rw [← h.frames_eq, ← hfree, mapped_add, Layout.frames, Layout.frames, List.map_cons,
      ← Multiset.cons_coe, ← Multiset.singleton_add]
    simp only [mapped, Multiset.map_singleton, Page.fresh]
    abel
  · refine ⟨hpages, hne, ?_⟩
    change Path 0 (pageNext next.bytes)
      (pageNext next.bytes (frame + mapping.hhdmOffset)) _ _
    rw [hbytes, pageNext_fresh hword h.heapPages_lt, ← hbytes]
    exact h.link fun page hpage ↦ (helsewhere.pages page hpage).2
  · rw [List.forall_mem_cons]
    refine ⟨?_, fun page hpage ↦ (helsewhere.pages page hpage).1⟩
    rw [hbytes]
    exact pageAt_fresh hword

/-- A run of free frames becomes a large block. -/
theorem Represents.addLarge (h : Represents mapping state heap) {frame size : ℕ}
    (hsize : 4040 < size) (hcount : 0 < frameCounts size)
    (hsound : Frames.Sound next.context.freelist)
    (hfree : Frames.free next.context.freelist + strided 4096 frame (frameCounts size) =
      Frames.free state.context.freelist)
    (hbytes : next.bytes = Frames.blockImage state.bytes (frame + mapping.hhdmOffset)
      (frameCounts size))
    (hpages : next.context.heapPages = state.context.heapPages)
    (hblock : block = ⟨frame + mapping.hhdmOffset + 40, size, 4096 * frameCounts size - 40⟩) :
    block ∉ heap.large ∧
      Represents mapping next { heap with large := insert block heap.large } := by
  have hle : strided 4096 frame (frameCounts size) ≤ Frames.free state.context.freelist := by
    rw [← hfree]
    exact Multiset.le_add_left _ _
  obtain ⟨hne, hword⟩ := h.free_facts hcount hle
  have helsewhere : Elsewhere heap state.bytes next.bytes :=
    h.elsewhere_free hcount hle fun x hx ↦ by
      rw [hbytes]
      exact blockImage_of_outside hcount hword hne hx
  have hframes : block.frames =
      mapped mapping.hhdmOffset (strided 4096 frame (frameCounts size)) := by
    rw [mapped_strided, hblock]
    rfl
  have hnew : block ∉ heap.large := by
    intro hmem
    have hapart := h.free_apart hle (Layout.large_le hmem) (h.large_facts hmem).1 hcount
      (h.large block hmem).count_pos
    simp only [hblock, Extent.Apart, Extent.stop] at hapart
    omega
  refine ⟨hnew, hsound, ?_, ?_, fun page hpage ↦ (helsewhere.pages page hpage).1, ?_, ?_⟩
  · rw [← h.frames_eq, ← hfree, mapped_add, ← hframes, Layout.frames, Layout.frames,
      Finset.sum_insert hnew]
    abel
  · rw [hpages]
    exact h.link fun page hpage ↦ (helsewhere.pages page hpage).2
  · refine (Finset.forall_mem_insert _ _ _).mpr ⟨?_, h.large⟩
    rw [hblock]
    exact ⟨hsize, hcount, by dsimp only; omega, by dsimp only; omega⟩
  · refine (Finset.forall_mem_insert _ _ _).mpr ⟨?_, helsewhere.words⟩
    rw [hblock, hbytes]
    exact load64_blockImage hcount (by omega) (by omega)

/-- Where a large block is mapped from. -/
theorem Represents.large_physical (h : Represents mapping state heap)
    (hblock : block ∈ heap.large) :
    ∃ frame, block.pointer - 40 = frame + mapping.hhdmOffset ∧
      mapped mapping.hhdmOffset (strided 4096 frame (frameCounts block.size)) = block.frames := by
  have hmem : block.pointer - 40 ∈ heap.frames := Multiset.mem_of_le (Layout.large_le hblock)
    (mem_strided.mpr ⟨0, (h.large block hblock).count_pos, rfl⟩)
  have hmapped : block.pointer - 40 ∈ mapped mapping.hhdmOffset mapping.frames := by
    rw [← h.frames_eq]
    exact Multiset.mem_add.mpr (Or.inr hmem)
  obtain ⟨frame, -, hframe⟩ := mem_mapped.mp hmapped
  refine ⟨frame, hframe.symm, ?_⟩
  rw [mapped_strided, hframe]
  rfl

/-- The frames of a large block go back to the table. -/
theorem Represents.freeLarge (h : Represents mapping state heap) (hblock : block ∈ heap.large)
    {frame : ℕ} (hframe : mapped mapping.hhdmOffset
      (strided 4096 frame (frameCounts block.size)) = block.frames)
    (hsound : Frames.Sound next.context.freelist)
    (hfree : Frames.free next.context.freelist =
      Frames.free state.context.freelist + strided 4096 frame (frameCounts block.size))
    (hbytes : next.bytes = state.bytes)
    (hpages : next.context.heapPages = state.context.heapPages) :
    Represents mapping next { heap with large := heap.large.erase block } := by
  refine ⟨hsound, ?_, ?_, ?_, fun other hother ↦ h.large other (Finset.mem_of_mem_erase hother),
    fun other hother ↦ ?_⟩
  · rw [← h.frames_eq, hfree, mapped_add, hframe, Layout.frames, Layout.frames,
      ← Finset.add_sum_erase _ _ hblock]
    abel
  · rw [hbytes, hpages]
    exact h.chain
  · rw [hbytes]
    exact h.pages
  · rw [hbytes]
    exact h.words other (Finset.mem_of_mem_erase hother)

end Layout

section Write

variable {mapping : Mapping} {state : AllocatorState} {heap : Layout} {page : Page} {block : Block}
  {bytes after : Memory}

def Block.room (block : Block) : Extent := ⟨block.pointer, block.word⟩

theorem PageAt.write (h : PageAt bytes page) (hword : page.base + 4096 ≤ 2 ^ 64)
    (hblock : block ∈ page.blocks)
    (houtside : ∀ x, ¬ block.room.Holds x → after x = bytes x) :
    PageAt after page ∧ pageNext after page.base = pageNext bytes page.base := by
  have hwithin := page.blocks_within block hblock
  have hkept (address : ℕ) (hapart : Extent.Apart ⟨address, 8⟩ block.room) :
      load64 after address = load64 bytes address :=
    load64_congr fun x hlow hhigh ↦ houtside x (hapart.not_holds ⟨hlow, hhigh⟩)
  have hroom : block.room.Within block.slot := by
    simp only [Block.room, Block.slot, Extent.Within, Extent.stop]
    omega
  have hbefore (address : ℕ) (haddress : address + 8 ≤ page.base + 32) :
      load64 after address = load64 bytes address := by
    refine hkept address (Or.inl ?_)
    simp only [Block.room, Extent.stop]
    omega
  refine ⟨⟨?_, ?_, fun other hother ↦ ?_⟩, ?_⟩
  · rw [hbefore page.base (by omega)]
    refine h.nodes.congr (fun node hnode ↦ ?_) fun node hnode x hx ↦ houtside x ?_
    · have hnode' := page.ordered.within node hnode
      simp only [Node.extent, Extent.stop] at hnode'
      omega
    · refine ((page.nodes_apart block hblock node hnode).symm.mono_right hroom).not_holds ?_
      refine ⟨hx.1, hx.2.trans_le ?_⟩
      simp only [Node.header, Node.extent, Extent.stop]
      omega
  · rw [hbefore _ (by omega)]
    exact h.largest
  · rw [hkept, h.words other hother]
    have hother' := page.blocks_within other hother
    by_cases heq : other = block
    · subst heq
      refine Or.inl ?_
      simp only [Block.room, Extent.stop]
      omega
    · refine ((page.blocks_apart other hother block hblock heq).mono_right hroom).mono_left ?_
      simp only [Block.slot, Extent.Within, Extent.stop]
      omega
  · have hadd : add page.base 24 = page.base + 24 := add_of_lt (by omega)
    rw [pageNext, pageNext, hadd]
    exact hbefore _ (by omega)

/-- Nothing the owner of a block writes there disturbs the heap. -/
theorem Represents.write (h : Represents mapping state heap) (hlive : heap.Live block)
    (houtside : ∀ x, ¬ block.room.Holds x → after x = state.bytes x) :
    Represents mapping { state with bytes := after } heap := by
  rcases hlive with hblock | ⟨page, hpage, hblock⟩
  · have hlarge := h.large block hblock
    have hroom : block.room.Within block.span := by
      have hword := hlarge.word_eq
      have hpointer := hlarge.pointer_ge
      simp only [Block.room, Block.span, Extent.Within, Extent.stop]
      omega
    have helsewhere : Elsewhere heap state.bytes after := by
      refine h.elsewhere (fun page hpage ↦ (h.page_large_apart hpage hblock).mono_right hroom)
        (fun other hother ↦ ?_) houtside
      by_cases heq : other = block
      · subst heq
        refine Or.inl ?_
        have hpointer := hlarge.pointer_ge
        simp only [Block.room, Extent.stop]
        omega
      · exact ((h.large_apart hother hblock heq).mono_right hroom).mono_left (h.word_within hother)
    exact ⟨h.sound, h.frames_eq, h.link fun page hpage ↦ (helsewhere.pages page hpage).2,
      fun page hpage ↦ (helsewhere.pages page hpage).1, h.large, helsewhere.words⟩
  · obtain ⟨front, back, hpages⟩ := List.append_of_mem hpage
    obtain ⟨hnext, hlink⟩ := (h.pages page hpage).write (h.page_facts hpage).2.2 hblock houtside
    have hroom : block.room.Within page.extent := by
      refine Extent.Within.trans ?_ (page.block_within hblock)
      simp only [Block.room, Block.slot, Extent.Within, Extent.stop]
      omega
    have hreplace : Represents mapping { state with bytes := after }
        { heap with pages := front ++ page :: back } :=
      h.replace hpages rfl hnext
        (fun x hx ↦ houtside x fun hholds ↦ hx (hroom.holds hholds)) hlink
    rwa [← hpages] at hreplace

end Write

end SideHOS.Heap
