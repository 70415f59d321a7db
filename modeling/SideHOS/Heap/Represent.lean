import SideHOS.Heap.PageCode
import SideHOS.Frames.Spec

/-!
# The heap and the state that represents it

The layout of a heap is a list of pages and a set of large blocks with frames of their own.  The
state represents it when its linked pages are these pages, and the free frames, the pages and the
large blocks' frames together are the frames of the machine, each once.  Frames are counted at
their addresses in the direct map.
-/

namespace SideHOS.Heap

open Kernel Linked Machine Machine.Word64 Machine.ByteMemory Sharing Sharing.Program

/-- The usable frames of a machine and where they are mapped; no mapped address wraps. -/
structure Mapping where
  hhdmOffset : ℕ
  frames : Multiset ℕ
  offset_aligned : hhdmOffset % 4096 = 0
  nodup : frames.Nodup
  frame_aligned : ∀ frame ∈ frames, frame % 4096 = 0
  frame_ne_zero : ∀ frame ∈ frames, frame ≠ 0
  end_le : ∀ frame ∈ frames, frame + hhdmOffset + 4096 ≤ 2 ^ 64

/-- Frames at their virtual addresses. -/
def mapped (hhdmOffset : ℕ) (frames : Multiset ℕ) : Multiset ℕ := frames.map (· + hhdmOffset)

structure LargeBlock (block : Block) : Prop where
  size_gt : 4040 < block.size
  count_pos : 0 < frameCounts block.size
  pointer_ge : 40 ≤ block.pointer
  word_eq : block.word + 40 = 4096 * frameCounts block.size

def Block.frames (block : Block) : Multiset ℕ :=
  strided 4096 (block.pointer - 40) (frameCounts block.size)

def Block.span (block : Block) : Extent := ⟨block.pointer - 40, 4096 * frameCounts block.size⟩

/-- The pages in list order and the large blocks. -/
structure Layout where
  pages : List Page
  large : Finset Block

namespace Layout

def frames (heap : Layout) : Multiset ℕ :=
  ↑(heap.pages.map Page.base) + ∑ block ∈ heap.large, block.frames

def Live (heap : Layout) (block : Block) : Prop :=
  block ∈ heap.large ∨ ∃ page ∈ heap.pages, block ∈ page.blocks

/-- How many blocks have been freed into the heap's pages. -/
def lost (heap : Layout) : ℕ := (heap.pages.map Page.lost).sum

end Layout

structure Represents (mapping : Mapping) (state : AllocatorState) (heap : Layout) : Prop where
  sound : Frames.Sound state.context.freelist
  frames_eq : mapped mapping.hhdmOffset (Frames.free state.context.freelist) + heap.frames =
    mapped mapping.hhdmOffset mapping.frames
  chain : Chain 0 (pageNext state.bytes) state.context.heapPages (heap.pages.map Page.base)
  pages : ∀ page ∈ heap.pages, PageAt state.bytes page
  large : ∀ block ∈ heap.large, LargeBlock block
  words : ∀ block ∈ heap.large, load64 state.bytes (block.pointer - 8) = block.word

theorem mem_mapped {hhdmOffset frame : ℕ} {frames : Multiset ℕ} :
    frame ∈ mapped hhdmOffset frames ↔ ∃ physical ∈ frames, physical + hhdmOffset = frame :=
  Multiset.mem_map

theorem mapped_add (hhdmOffset : ℕ) (first second : Multiset ℕ) :
    mapped hhdmOffset (first + second) = mapped hhdmOffset first + mapped hhdmOffset second :=
  Multiset.map_add _ _ _

theorem mapped_strided (hhdmOffset frame count : ℕ) :
    mapped hhdmOffset (strided 4096 frame count) = strided 4096 (frame + hhdmOffset) count := by
  unfold mapped strided
  rw [Multiset.map_map]
  refine Multiset.map_congr rfl fun k _ ↦ ?_
  simp only [Function.comp_apply]
  omega

theorem Mapping.mem_mapped (mapping : Mapping) {frame : ℕ}
    (h : frame ∈ mapped mapping.hhdmOffset mapping.frames) :
    frame % 4096 = 0 ∧ frame ≠ 0 ∧ frame + 4096 ≤ 2 ^ 64 := by
  obtain ⟨physical, hphysical, rfl⟩ := Heap.mem_mapped.mp h
  have haligned := mapping.frame_aligned physical hphysical
  have hoffset := mapping.offset_aligned
  have hne := mapping.frame_ne_zero physical hphysical
  have hend := mapping.end_le physical hphysical
  omega

theorem Mapping.nodup_mapped (mapping : Mapping) :
    (mapped mapping.hhdmOffset mapping.frames).Nodup :=
  mapping.nodup.map (add_left_injective mapping.hhdmOffset)

section Frames

variable {mapping : Mapping} {state : AllocatorState} {heap : Layout} {page : Page} {block : Block}

theorem Represents.nodup (h : Represents mapping state heap) :
    (mapped mapping.hhdmOffset (Frames.free state.context.freelist) + heap.frames).Nodup := by
  rw [h.frames_eq]
  exact mapping.nodup_mapped

theorem Represents.nodup_bases (h : Represents mapping state heap) :
    (heap.pages.map Page.base).Nodup :=
  Multiset.coe_nodup.mp (Multiset.nodup_add.mp (Multiset.nodup_add.mp h.nodup).2.1).1

theorem Represents.frame_facts (h : Represents mapping state heap) {frame : ℕ}
    (hframe : frame ∈ heap.frames) : frame % 4096 = 0 ∧ frame ≠ 0 ∧ frame + 4096 ≤ 2 ^ 64 := by
  refine mapping.mem_mapped ?_
  rw [← h.frames_eq]
  exact Multiset.mem_add.mpr (Or.inr hframe)

theorem Layout.base_mem (hpage : page ∈ heap.pages) : page.base ∈ heap.frames :=
  Multiset.mem_add.mpr (Or.inl (Multiset.mem_coe.mpr (List.mem_map_of_mem hpage)))

theorem Layout.large_le (hblock : block ∈ heap.large) : block.frames ≤ heap.frames := by
  unfold Layout.frames
  rw [← Finset.add_sum_erase _ _ hblock]
  exact (Multiset.le_add_right _ _).trans (Multiset.le_add_left _ _)

theorem Represents.page_facts (h : Represents mapping state heap) (hpage : page ∈ heap.pages) :
    page.base % 4096 = 0 ∧ page.base ≠ 0 ∧ page.base + 4096 ≤ 2 ^ 64 :=
  h.frame_facts (Layout.base_mem hpage)

theorem Represents.large_facts (h : Represents mapping state heap) (hblock : block ∈ heap.large) :
    (block.pointer - 40) % 4096 = 0 ∧ block.pointer - 40 ≠ 0 ∧
      block.pointer - 40 + 4096 * frameCounts block.size ≤ 2 ^ 64 := by
  have hcount := (h.large block hblock).count_pos
  have hmem (k : ℕ) (hk : k < frameCounts block.size) :
      block.pointer - 40 + 4096 * k ∈ heap.frames :=
    Multiset.mem_of_le (Layout.large_le hblock) (mem_strided.mpr ⟨k, hk, rfl⟩)
  have hfirst := h.frame_facts (hmem 0 hcount)
  have hlast := (h.frame_facts (hmem (frameCounts block.size - 1) (by omega))).2.2
  omega

/-- Two runs of frames of which only one belongs to the heap's frames are apart. -/
theorem apart_of_frames {low high lowCount highCount : ℕ} {first second : Multiset ℕ}
    (hnodup : (first + second).Nodup) (hfirst : strided 4096 low lowCount ≤ first)
    (hsecond : strided 4096 high highCount ≤ second) (hlow : low % 4096 = 0)
    (hhigh : high % 4096 = 0) (hlowCount : 0 < lowCount) (hhighCount : 0 < highCount) :
    Extent.Apart ⟨low, 4096 * lowCount⟩ ⟨high, 4096 * highCount⟩ := by
  refine Extent.apart_of_disjoint hlow hhigh hlowCount hhighCount ?_
  exact ((Multiset.nodup_add.mp hnodup).2.2.mono_left hfirst).mono_right hsecond

theorem strided_le_of_mem {frame : ℕ} {frames : Multiset ℕ} (h : frame ∈ frames) :
    strided 4096 frame 1 ≤ frames := by
  rwa [strided_one, Multiset.singleton_le]

/-- The frames of the heap lie apart from the free frames. -/
theorem Represents.free_apart (h : Represents mapping state heap) {frame frameCount low count : ℕ}
    (hfree : strided 4096 frame frameCount ≤ Frames.free state.context.freelist)
    (hframes : strided 4096 low count ≤ heap.frames) (hlow : low % 4096 = 0)
    (hframeCount : 0 < frameCount) (hcount : 0 < count) :
    Extent.Apart ⟨frame + mapping.hhdmOffset, 4096 * frameCount⟩ ⟨low, 4096 * count⟩ := by
  have hmem : frame ∈ Frames.free state.context.freelist :=
    Multiset.mem_of_le hfree (mem_strided.mpr ⟨0, hframeCount, rfl⟩)
  have haligned := Frames.aligned_of_mem h.sound hmem
  have hoffset := mapping.offset_aligned
  have hle : strided 4096 (frame + mapping.hhdmOffset) frameCount ≤
      mapped mapping.hhdmOffset (Frames.free state.context.freelist) := by
    rw [← mapped_strided]
    exact Multiset.map_le_map hfree
  exact apart_of_frames h.nodup hle hframes (by omega) hlow hframeCount hcount

/-- Pages at different places of the list are apart. -/
theorem Represents.pages_apart (h : Represents mapping state heap) {front back : List Page}
    (hpages : heap.pages = front ++ page :: back) {other : Page}
    (hother : other ∈ front ∨ other ∈ back) : other.extent.Apart page.extent := by
  have hnodup := h.nodup_bases
  have hne : other.base ≠ page.base := by
    rw [hpages, List.map_append, List.map_cons, List.nodup_append, List.nodup_cons] at hnodup
    rcases hother with hother | hother
    · exact hnodup.2.2 _ (List.mem_map_of_mem hother) _ List.mem_cons_self
    · exact fun heq ↦ hnodup.2.1.1 (heq ▸ List.mem_map_of_mem hother)
  have hmem : other ∈ heap.pages ∧ page ∈ heap.pages := by
    rw [hpages]
    rcases hother with hother | hother <;> simp [hother]
  have hfirst := (h.page_facts hmem.1).1
  have hsecond := (h.page_facts hmem.2).1
  have hdisjoint : Disjoint (strided 4096 other.base 1) (strided 4096 page.base 1) := by
    rw [strided_one, strided_one, Multiset.disjoint_singleton, Multiset.mem_singleton]
    exact Ne.symm hne
  exact Extent.apart_of_disjoint hfirst hsecond one_pos one_pos hdisjoint

theorem Represents.page_large_apart (h : Represents mapping state heap) (hpage : page ∈ heap.pages)
    (hblock : block ∈ heap.large) : page.extent.Apart block.span := by
  have hle : block.frames ≤ ∑ other ∈ heap.large, other.frames := by
    rw [← Finset.add_sum_erase _ _ hblock]
    exact Multiset.le_add_right _ _
  exact apart_of_frames (Multiset.nodup_add.mp h.nodup).2.1
    (strided_le_of_mem (Multiset.mem_coe.mpr (List.mem_map_of_mem hpage))) hle
    (h.page_facts hpage).1 (h.large_facts hblock).1 one_pos (h.large block hblock).count_pos

theorem Represents.large_apart (h : Represents mapping state heap) {other : Block}
    (hblock : block ∈ heap.large) (hother : other ∈ heap.large) (hne : block ≠ other) :
    block.span.Apart other.span := by
  have hnodup := (Multiset.nodup_add.mp (Multiset.nodup_add.mp h.nodup).2.1).2.1
  rw [← Finset.add_sum_erase _ _ hblock] at hnodup
  have hmem : other ∈ heap.large.erase block := Finset.mem_erase.mpr ⟨Ne.symm hne, hother⟩
  have hle : other.frames ≤ ∑ next ∈ heap.large.erase block, next.frames := by
    rw [← Finset.add_sum_erase _ _ hmem]
    exact Multiset.le_add_right _ _
  exact apart_of_frames hnodup le_rfl hle (h.large_facts hblock).1 (h.large_facts hother).1
    (h.large block hblock).count_pos (h.large other hother).count_pos

end Frames

section Page

variable {mapping : Mapping} {state : AllocatorState} {heap : Layout} {page next : Page}
  {front back : List Page} {slot : Extent} {bytes after : Memory}

/-- A page is represented by the bytes of its frame. -/
theorem PageAt.congr (h : PageAt bytes page) (hword : page.base + 4096 ≤ 2 ^ 64)
    (hagree : ∀ x, page.extent.Holds x → after x = bytes x) : PageAt after page := by
  have hload (offset : ℕ) (hoffset : offset + 8 ≤ 4096) :
      load64 after (page.base + offset) = load64 bytes (page.base + offset) :=
    load64_congr fun x hlow hhigh ↦ hagree x
      ⟨by simp only [Page.extent]; omega, by simp only [Page.extent, Extent.stop]; omega⟩
  refine ⟨?_, ?_, fun block hblock ↦ ?_⟩
  · rw [show load64 after page.base = load64 bytes page.base from hload 0 (by norm_num)]
    refine h.nodes.congr (fun node hnode ↦ ?_) fun node hnode x hx ↦ hagree x ?_
    · have hwithin := page.ordered.within node hnode
      simp only [Node.extent, Extent.stop] at hwithin
      omega
    · refine (page.node_within hnode).holds ⟨hx.1, hx.2.trans_le ?_⟩
      simp only [Node.header, Node.extent, Extent.stop]
      omega
  · rw [hload 16 (by norm_num)]
    exact h.largest
  · have hwithin := page.blocks_within block hblock
    have hpointer : block.pointer - 8 = page.base + (block.pointer - 8 - page.base) := by omega
    have hstop := hwithin.2
    simp only [Block.slot, Extent.stop] at hstop
    rw [← h.words block hblock, hpointer]
    exact hload _ (by omega)

theorem Touches.outside (h : Touches page slot bytes after) (hslot : slot.Within page.extent)
    {x : ℕ} (hx : ¬ page.extent.Holds x) : after x = bytes x := by
  refine h x (fun hholds ↦ hx ?_)
      (fun node hnode hholds ↦ hx ((page.node_within hnode).holds hholds))
    fun hholds ↦ hx (hslot.holds hholds)
  simp only [Page.extent, Extent.Holds, Extent.stop] at hholds ⊢
  omega

theorem Touches.pageNext_eq (h : Touches page slot bytes after)
    (hslot : page.base + 32 ≤ slot.start) (hword : page.base + 4096 ≤ 2 ^ 64) :
    pageNext after page.base = pageNext bytes page.base := by
  have hadd : add page.base 24 = page.base + 24 := add_of_lt (by omega)
  simp only [pageNext, hadd]
  refine h.load64_eq le_rfl (fun node hnode ↦ Or.inl ?_) (Or.inl ?_)
  · have hwithin := page.ordered.within node hnode
    simp only [Node.extent, Extent.stop]
    omega
  · simp only [Extent.stop]
    omega

/-- The size word of a large block is among its frames. -/
theorem Represents.word_within {block : Block} (h : Represents mapping state heap)
    (hblock : block ∈ heap.large) : Extent.Within ⟨block.pointer - 8, 8⟩ block.span := by
  have hpointer := (h.large block hblock).pointer_ge
  have hcount := (h.large block hblock).count_pos
  simp only [Block.span, Extent.Within, Extent.stop]
  omega

theorem mem_middle {other : Page} :
    other ∈ front ++ page :: back ↔ other = page ∨ other ∈ front ∨ other ∈ back := by
  rw [List.mem_append, List.mem_cons]
  tauto

theorem mem_of_eq_middle {pages : List Page} (h : pages = front ++ page :: back) :
    page ∈ pages := by
  rw [h]
  exact mem_middle.mpr (Or.inl rfl)

/-- Memory that differs only within one page still represents the others. -/
theorem Represents.others (h : Represents mapping state heap)
    (hpages : heap.pages = front ++ page :: back)
    (houtside : ∀ x, ¬ page.extent.Holds x → after x = state.bytes x) {other : Page}
    (hother : other ∈ front ∨ other ∈ back) :
    PageAt after other ∧ pageNext after other.base = pageNext state.bytes other.base := by
  have hmem : other ∈ heap.pages := by
    rw [hpages]
    exact mem_middle.mpr (Or.inr hother)
  have hword := (h.page_facts hmem).2.2
  have hkept (x : ℕ) (hx : other.extent.Holds x) : after x = state.bytes x :=
    houtside x ((h.pages_apart hpages hother).not_holds hx)
  refine ⟨(h.pages other hmem).congr hword hkept, ?_⟩
  have hadd : add other.base 24 = other.base + 24 := add_of_lt (by omega)
  simp only [pageNext, hadd]
  refine load64_congr fun x hlow hhigh ↦ hkept x ⟨?_, ?_⟩
  · simp only [Page.extent]
    omega
  · simp only [Page.extent, Extent.stop]
    omega

/-- Changing a page's own bytes to represent another page with the same frame changes just that
page of the heap. -/
theorem Represents.replace (h : Represents mapping state heap)
    (hpages : heap.pages = front ++ page :: back) (hbase : next.base = page.base)
    (hnext : PageAt after next)
    (houtside : ∀ x, ¬ page.extent.Holds x → after x = state.bytes x)
    (hlink : pageNext after page.base = pageNext state.bytes page.base) {lock : ℕ} :
    Represents mapping { state with bytes := after, memoryLock := lock }
      { heap with pages := front ++ next :: back } := by
  have hmem : page ∈ heap.pages := by
    rw [hpages]
    exact mem_middle.mpr (Or.inl rfl)
  have hbases : (front ++ next :: back).map Page.base = heap.pages.map Page.base := by
    rw [hpages]
    simp [hbase]
  refine ⟨h.sound, ?_, ?_, ?_, h.large, ?_⟩
  · rw [← h.frames_eq]
    simp only [Layout.frames, hbases]
  · rw [hbases]
    refine h.chain.congr fun cell hcell ↦ ?_
    obtain ⟨other, hother, rfl⟩ := List.mem_map.mp hcell
    rw [hpages] at hother
    rcases mem_middle.mp hother with rfl | hside
    · exact hlink
    · exact (h.others hpages houtside hside).2
  · intro other hother
    rcases mem_middle.mp hother with rfl | hside
    · exact hnext
    · exact (h.others hpages houtside hside).1
  · intro block hblock
    rw [← h.words block hblock]
    refine load64_congr fun x hlow hhigh ↦ houtside x ?_
    exact (h.page_large_apart hmem hblock).symm.not_holds
      ((h.word_within hblock).holds ⟨hlow, hhigh⟩)

end Page

end SideHOS.Heap
