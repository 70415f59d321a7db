import SideHOS.Heap.Change

/-!
# What live blocks lie apart from

The cell of a block is its size word and the memory after it that its owner may use.  In a
represented heap the cell of a live block lies within its page or within its own frames, and is
apart from every other live block's cell, from every header, from every free node and from every
free frame.
-/

namespace SideHOS.Heap

open Kernel Linked Machine Machine.Word64 Machine.ByteMemory Sharing Sharing.Program

/-- The size word of a block and its room. -/
def Block.cell (block : Block) : Extent := ⟨block.pointer - 8, 8 + block.word⟩

variable {mapping : Mapping} {state : AllocatorState} {heap : Layout} {page other : Page}
  {block second : Block} {node : Node}

theorem LargeBlock.cell_within (h : LargeBlock block) : block.cell.Within block.span := by
  have hword := h.word_eq
  have hpointer := h.pointer_ge
  simp only [Block.cell, Block.span, Extent.Within, Extent.stop]
  omega

theorem Page.cell_within_slot (hblock : block ∈ page.blocks) : block.cell.Within block.slot := by
  have hwithin := page.blocks_within block hblock
  simp only [Block.cell, Block.slot, Extent.Within, Extent.stop]
  omega

theorem Page.cell_within (hblock : block ∈ page.blocks) : block.cell.Within page.extent :=
  (Page.cell_within_slot hblock).trans (page.block_within hblock)

theorem Represents.pages_apart_of_ne (h : Represents mapping state heap) (hpage : page ∈ heap.pages)
    (hother : other ∈ heap.pages) (hne : other ≠ page) : other.extent.Apart page.extent := by
  obtain ⟨front, back, hpages⟩ := List.append_of_mem hpage
  rw [hpages] at hother
  exact h.pages_apart hpages ((mem_middle.mp hother).resolve_left hne)

/-- A large block lies apart from what lies in a page. -/
theorem Represents.large_cell_apart (h : Represents mapping state heap) {region : Extent}
    (hblock : block ∈ heap.large) (hpage : page ∈ heap.pages)
    (hregion : region.Within page.extent) : block.cell.Apart region :=
  ((h.page_large_apart hpage hblock).symm.mono_left (h.large block hblock).cell_within).mono_right
    hregion

/-- A block of one page lies apart from what lies in another. -/
theorem Represents.page_cell_apart (h : Represents mapping state heap) {region : Extent}
    (hother : other ∈ heap.pages) (hblock : block ∈ other.blocks) (hpage : page ∈ heap.pages)
    (hne : other ≠ page) (hregion : region.Within page.extent) : block.cell.Apart region :=
  ((h.pages_apart_of_ne hpage hother hne).mono_left (Page.cell_within hblock)).mono_right hregion

/-- Cells of different live blocks are apart. -/
theorem Represents.cells_apart (h : Represents mapping state heap) (hfirst : heap.Live block)
    (hsecond : heap.Live second) (hne : block ≠ second) : block.cell.Apart second.cell := by
  rcases hfirst with hfirst | ⟨page, hpage, hfirst⟩
  · rcases hsecond with hsecond | ⟨other, hother, hsecond⟩
    · exact ((h.large_apart hfirst hsecond hne).mono_left
        (h.large block hfirst).cell_within).mono_right (h.large second hsecond).cell_within
    · exact h.large_cell_apart hfirst hother (Page.cell_within hsecond)
  · rcases hsecond with hsecond | ⟨other, hother, hsecond⟩
    · exact (h.large_cell_apart hsecond hpage (Page.cell_within hfirst)).symm
    · by_cases hpages : page = other
      · subst hpages
        exact ((page.blocks_apart block hfirst second hsecond hne).mono_left
          (Page.cell_within_slot hfirst)).mono_right (Page.cell_within_slot hsecond)
      · exact h.page_cell_apart hpage hfirst hother hpages (Page.cell_within hsecond)

/-- Cells are apart from free nodes and their bytes. -/
theorem Represents.cell_apart_node (h : Represents mapping state heap) (hblock : heap.Live block)
    (hpage : page ∈ heap.pages) (hnode : node ∈ page.nodes) : block.cell.Apart node.extent := by
  rcases hblock with hblock | ⟨other, hother, hblock⟩
  · exact h.large_cell_apart hblock hpage (page.node_within hnode)
  · by_cases hpages : other = page
    · subst hpages
      exact (other.nodes_apart block hblock node hnode).mono_left (Page.cell_within_slot hblock)
    · exact h.page_cell_apart hother hblock hpage hpages (page.node_within hnode)

/-- Cells are apart from what other blocks take up in their pages. -/
theorem Represents.cell_apart_slot (h : Represents mapping state heap) (hblock : heap.Live block)
    (hpage : page ∈ heap.pages) (hsecond : second ∈ page.blocks) (hne : block ≠ second) :
    block.cell.Apart second.slot := by
  rcases hblock with hblock | ⟨other, hother, hblock⟩
  · exact h.large_cell_apart hblock hpage (page.block_within hsecond)
  · by_cases hpages : other = page
    · subst hpages
      exact (other.blocks_apart block hblock second hsecond hne).mono_left
        (Page.cell_within_slot hblock)
    · exact h.page_cell_apart hother hblock hpage hpages (page.block_within hsecond)

/-- Cells are apart from the headers of pages. -/
theorem Represents.cell_apart_header (h : Represents mapping state heap)
    (hblock : heap.Live block) (hpage : page ∈ heap.pages) : block.cell.Apart page.header := by
  have hheader : page.header.Within page.extent := by
    simp only [Page.header, Page.extent, Extent.Within, Extent.stop]
    omega
  rcases hblock with hblock | ⟨other, hother, hblock⟩
  · exact h.large_cell_apart hblock hpage hheader
  · by_cases hpages : other = page
    · subst hpages
      refine Or.inr ?_
      have hwithin := other.blocks_within block hblock
      simp only [Page.header, Block.cell, Extent.stop]
      omega
    · exact h.page_cell_apart hother hblock hpage hpages hheader

/-- Cells are apart from the headers of large blocks. -/
theorem Represents.cell_apart_largeHeader (h : Represents mapping state heap)
    (hblock : heap.Live block) (hsecond : second ∈ heap.large) :
    block.cell.Apart ⟨second.pointer - 40, 32⟩ := by
  have hlarge := h.large second hsecond
  have hcount := hlarge.count_pos
  have hheader : Extent.Within ⟨second.pointer - 40, 32⟩ second.span := by
    simp only [Block.span, Extent.Within, Extent.stop]
    omega
  rcases hblock with hblock | ⟨page, hpage, hblock⟩
  · by_cases heq : block = second
    · subst heq
      refine Or.inr ?_
      have hpointer := hlarge.pointer_ge
      simp only [Block.cell, Extent.stop]
      omega
    · exact ((h.large_apart hblock hsecond heq).mono_left
        (h.large block hblock).cell_within).mono_right hheader
  · exact ((h.page_large_apart hpage hsecond).mono_left (Page.cell_within hblock)).mono_right
      hheader

/-- Cells are apart from free frames. -/
theorem Represents.cell_apart_free (h : Represents mapping state heap) (hblock : heap.Live block)
    {frame count : ℕ} (hcount : 0 < count)
    (hfree : strided 4096 frame count ≤ Frames.free state.context.freelist) :
    block.cell.Apart ⟨frame + mapping.hhdmOffset, 4096 * count⟩ := by
  rcases hblock with hblock | ⟨page, hpage, hblock⟩
  · exact (h.free_apart hfree (Layout.large_le hblock) (h.large_facts hblock).1 hcount
      (h.large block hblock).count_pos).symm.mono_left (h.large block hblock).cell_within
  · exact (h.free_apart hfree (strided_le_of_mem (Layout.base_mem hpage)) (h.page_facts hpage).1
      hcount one_pos).symm.mono_left (Page.cell_within hblock)

end SideHOS.Heap
