import SideHOS.Heap.FreeNodes

/-!
# Heap pages

What a heap page is for, apart from its representation: a frame whose 4064 bytes after the header
are shared out between free nodes and live blocks.  A `Page` carries the proofs that nodes and
blocks lie in the page and do not overlap; `fresh`, `carve` and `release` are the three things
that happen to it.  `lost` counts the blocks which have been freed: each free node is 8 bytes
shorter than the block it was made of.
-/

namespace SideHOS.Heap

open Machine

/-- A heap page: its free nodes in list order, and the live blocks carved from it. -/
structure Page where
  base : ℕ
  largest : ℕ
  nodes : List Node
  blocks : Finset Block
  lost : ℕ
  ordered : Ordered (base + 32) (base + 4096) nodes
  blocks_within : ∀ block ∈ blocks, base + 56 ≤ block.pointer ∧ block.slot.stop ≤ base + 4096
  blocks_apart : ∀ first ∈ blocks, ∀ second ∈ blocks, first ≠ second →
    first.slot.Apart second.slot
  nodes_apart : ∀ block ∈ blocks, ∀ node ∈ nodes, block.slot.Apart node.extent
  size_le : ∀ block ∈ blocks, block.size ≤ block.word
  largest_le : 0 < largest → ∃ node ∈ nodes, largest ≤ node.length
  balance : nodeBytes nodes + ∑ block ∈ blocks, (24 + block.word) + 8 * lost = 4064

namespace Page

def extent (page : Page) : Extent := ⟨page.base, 4096⟩

def header (page : Page) : Extent := ⟨page.base, 32⟩

/-- A page as `memory_allocate_frame` makes it. -/
def fresh (base : ℕ) : Page where
  base := base
  largest := 4048
  nodes := [⟨base + 32, 4048⟩]
  blocks := ∅
  lost := 0
  ordered := by
    constructor
    · exact List.pairwise_singleton _ _
    · simp [Node.extent, Extent.stop]
  blocks_within := by simp
  blocks_apart := by simp
  nodes_apart := by simp
  size_le := by simp
  largest_le _ := ⟨_, List.mem_singleton_self _, le_rfl⟩
  balance := by simp [nodeBytes]

variable (page : Page)

theorem block_within {block : Block} (hblock : block ∈ page.blocks) :
    block.slot.Within page.extent := by
  have hwithin := page.blocks_within block hblock
  simp only [Block.slot, extent, Extent.Within, Extent.stop] at hwithin ⊢
  omega

theorem node_within {node : Node} (hnode : node ∈ page.nodes) :
    node.extent.Within page.extent := by
  have hwithin := page.ordered.within node hnode
  simp only [Node.extent, extent, Extent.Within, Extent.stop] at hwithin ⊢
  omega

section Carve

variable {front back : List Node} {node : Node} {size : ℕ}

/-- A node of the page and what stands before and after it. -/
structure Fit (page : Page) (front : List Node) (node : Node) (back : List Node) (size : ℕ) :
    Prop where
  nodes_eq : page.nodes = front ++ node :: back
  le_length : size + 8 ≤ node.length

variable {page}

theorem Fit.mem (h : page.Fit front node back size) : node ∈ page.nodes := by
  rw [h.nodes_eq]
  simp

theorem Fit.apart (h : page.Fit front node back size) {block : Block}
    (hblock : block ∈ page.blocks) :
    block.slot.Apart (carvedBlock node size).slot :=
  (page.nodes_apart block hblock node h.mem).mono_right (carved_within h.le_length)

theorem Fit.not_mem (h : page.Fit front node back size) : carvedBlock node size ∉ page.blocks := by
  intro hmem
  have hapart := h.apart hmem
  simp only [Block.slot, Extent.Apart, Extent.stop] at hapart
  omega

theorem Fit.node_apart (h : page.Fit front node back size) {other : Node}
    (hother : other ∈ front ∨ other ∈ back) : node.extent.Apart other.extent := by
  have hpairwise := page.ordered.pairwise
  rw [h.nodes_eq, List.pairwise_append, List.pairwise_cons] at hpairwise
  rcases hother with hother | hother
  · exact Or.inr (hpairwise.2.2 other hother node List.mem_cons_self)
  · exact Or.inl (hpairwise.2.1.1 other hother)

/-- What stays on the list is apart from a block that was apart from the whole list. -/
theorem Fit.rest_apart (h : page.Fit front node back size) {slot : Extent}
    (hslot : ∀ other ∈ page.nodes, slot.Apart other.extent) :
    ∀ other ∈ front ++ carvedRest node size ++ back, slot.Apart other.extent := by
  intro other hother
  rw [h.nodes_eq] at hslot
  rw [List.mem_append, List.mem_append] at hother
  rcases hother with (hother | hother) | hother
  · exact hslot other (by simp [hother])
  · exact (hslot node (by simp)).mono_right (carvedRest_within h.le_length hother).1
  · exact hslot other (by simp [hother])

theorem Fit.carved_ordered (h : page.Fit front node back size) :
    Ordered (page.base + 32) (page.base + 4096) (front ++ carvedRest node size ++ back) :=
  (h.nodes_eq ▸ page.ordered).carve h.le_length

theorem Fit.carved_blocks_within (h : page.Fit front node back size) :
    ∀ block ∈ insert (carvedBlock node size) page.blocks,
      page.base + 56 ≤ block.pointer ∧ block.slot.stop ≤ page.base + 4096 := by
  rw [Finset.forall_mem_insert]
  refine ⟨?_, page.blocks_within⟩
  have hnode := page.ordered.within node h.mem
  have hwithin := carved_within h.le_length
  exact ⟨by simp only [carvedBlock]; omega, hwithin.2.trans hnode.2⟩

theorem Fit.carved_blocks_apart (h : page.Fit front node back size) :
    ∀ first ∈ insert (carvedBlock node size) page.blocks,
      ∀ second ∈ insert (carvedBlock node size) page.blocks,
        first ≠ second → first.slot.Apart second.slot := by
  simp only [Finset.forall_mem_insert]
  refine ⟨⟨fun hne ↦ absurd rfl hne, fun block hblock _ ↦ (h.apart hblock).symm⟩,
    fun block hblock ↦ ⟨fun _ ↦ h.apart hblock, page.blocks_apart block hblock⟩⟩

theorem Fit.carved_nodes_apart (h : page.Fit front node back size) :
    ∀ block ∈ insert (carvedBlock node size) page.blocks,
      ∀ other ∈ front ++ carvedRest node size ++ back, block.slot.Apart other.extent := by
  rw [Finset.forall_mem_insert]
  refine ⟨fun other hother ↦ ?_, fun block hblock ↦
    h.rest_apart (page.nodes_apart block hblock)⟩
  rw [List.mem_append, List.mem_append] at hother
  rcases hother with (hother | hother) | hother
  · exact (h.node_apart (Or.inl hother)).mono_left (carved_within h.le_length)
  · exact (carvedRest_within h.le_length hother).2
  · exact (h.node_apart (Or.inr hother)).mono_left (carved_within h.le_length)

theorem carved_size_le :
    ∀ block ∈ insert (carvedBlock node size) page.blocks, block.size ≤ block.word := by
  rw [Finset.forall_mem_insert]
  exact ⟨size_le_carved, page.size_le⟩

theorem exists_maxLength_le {nodes : List Node} (hpos : 0 < maxLength 0 nodes) :
    ∃ node ∈ nodes, maxLength 0 nodes ≤ node.length := by
  rcases maxLength_mem 0 nodes with hzero | ⟨node, hnode, heq⟩
  · exact absurd hzero hpos.ne'
  · exact ⟨node, hnode, heq.le⟩

theorem Fit.carved_balance (h : page.Fit front node back size) :
    nodeBytes (front ++ carvedRest node size ++ back) +
      ∑ block ∈ insert (carvedBlock node size) page.blocks, (24 + block.word) +
        8 * page.lost = 4064 := by
  have hbalance := page.balance
  have hcarved := @carved_bytes size node h.le_length
  rw [h.nodes_eq, nodeBytes_append, nodeBytes_cons] at hbalance
  rw [nodeBytes_append, nodeBytes_append, Finset.sum_insert h.not_mem]
  omega

/-- The page after `kmalloc` took `size` bytes from a node. -/
def carve (page : Page) (front : List Node) (node : Node) (back : List Node) (size : ℕ)
    (h : page.Fit front node back size) : Page where
  base := page.base
  largest := maxLength 0 (front ++ carvedRest node size ++ back)
  nodes := front ++ carvedRest node size ++ back
  blocks := insert (carvedBlock node size) page.blocks
  lost := page.lost
  ordered := h.carved_ordered
  blocks_within := h.carved_blocks_within
  blocks_apart := h.carved_blocks_apart
  nodes_apart := h.carved_nodes_apart
  size_le := carved_size_le
  largest_le := exists_maxLength_le
  balance := h.carved_balance

end Carve

section Release

variable {page} {block : Block}

/-- The free list after `kfree`. -/
def releasedNodes (page : Page) (block : Block) : List Node :=
  coalesce (freedNode block) (nodesAfter block page.nodes) (nodesBefore block page.nodes)

theorem releasedNodes_merges (page : Page) (block : Block) :
    Merges (nodesBefore block page.nodes ++ freedNode block :: nodesAfter block page.nodes)
      (page.releasedNodes block) := coalesce_merges _ _ _

theorem released_ordered (page : Page) (hblock : block ∈ page.blocks) :
    Ordered (page.base + 32) (page.base + 4096) (page.releasedNodes block) := by
  have hwithin := page.blocks_within block hblock
  refine Ordered.merges (page.ordered.insert (page.nodes_apart block hblock) ?_)
    (page.releasedNodes_merges block)
  simp only [Block.slot] at hwithin ⊢
  exact ⟨by omega, hwithin.2⟩

theorem released_nodes_apart (page : Page) (hblock : block ∈ page.blocks) :
    ∀ other ∈ page.blocks.erase block, ∀ node ∈ page.releasedNodes block,
      other.slot.Apart node.extent := by
  intro other hother
  have hmem := Finset.mem_of_mem_erase hother
  refine apart_merges (by simp only [Block.slot]; omega) (fun node hnode ↦ ?_)
    (page.releasedNodes_merges block)
  have hnodes (node : Node) (hnode : node ∈ nodesBefore block page.nodes ++
      nodesAfter block page.nodes) : other.slot.Apart node.extent := by
    rw [before_append_after] at hnode
    exact page.nodes_apart other hmem node hnode
  rw [List.mem_append, List.mem_cons] at hnode
  rcases hnode with hnode | rfl | hnode
  · exact hnodes node (List.mem_append_left _ hnode)
  · exact (page.blocks_apart other hmem block hblock (Finset.ne_of_mem_erase hother)).mono_right
      (freedNode_within block)
  · exact hnodes node (List.mem_append_right _ hnode)

theorem released_largest_le (page : Page) (hpos : 0 < page.largest) :
    ∃ node ∈ page.releasedNodes block, page.largest ≤ node.length := by
  refine exists_length_merges ?_ (page.releasedNodes_merges block)
  obtain ⟨node, hnode, hle⟩ := page.largest_le hpos
  rw [← before_append_after block page.nodes, List.mem_append] at hnode
  refine ⟨node, ?_, hle⟩
  rw [List.mem_append, List.mem_cons]
  exact hnode.imp_right Or.inr

theorem released_balance (page : Page) (hblock : block ∈ page.blocks) :
    nodeBytes (page.releasedNodes block) + ∑ other ∈ page.blocks.erase block, (24 + other.word) +
      8 * (page.lost + 1) = 4064 := by
  have hbalance := page.balance
  rw [← before_append_after block page.nodes, nodeBytes_append,
    ← Finset.add_sum_erase _ _ hblock] at hbalance
  rw [nodeBytes_merges (page.releasedNodes_merges block), nodeBytes_append, nodeBytes_cons]
  dsimp only [freedNode]
  omega

/-- The page after `kfree` of one of its blocks. -/
def release (page : Page) (block : Block) (hblock : block ∈ page.blocks) : Page where
  base := page.base
  largest := page.largest
  nodes := page.releasedNodes block
  blocks := page.blocks.erase block
  lost := page.lost + 1
  ordered := page.released_ordered hblock
  blocks_within other hother := page.blocks_within other (Finset.mem_of_mem_erase hother)
  blocks_apart first hfirst second hsecond hne :=
    page.blocks_apart first (Finset.mem_of_mem_erase hfirst) second
      (Finset.mem_of_mem_erase hsecond) hne
  nodes_apart := page.released_nodes_apart hblock
  size_le other hother := page.size_le other (Finset.mem_of_mem_erase hother)
  largest_le := page.released_largest_le
  balance := page.released_balance hblock

end Release

end Page

/-- A property of pages that new pages have and `kmalloc` keeps. -/
structure Kept (P : Page → Prop) : Prop where
  fresh : ∀ base, P (Page.fresh base)
  carve : ∀ {page : Page} {front back : List Node} {node : Node} {size : ℕ}
    (hfit : page.Fit front node back size), P page → P (page.carve front node back size hfit)

end SideHOS.Heap
