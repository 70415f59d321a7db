import SideHOS.Heap.Reuse

/-!
# Blank nodes

The frames that become pages are zeroed, and `kmalloc` writes no more than headers into free nodes.
As long as no block is freed, the nodes are therefore zero behind their headers, and so is every
new small block.
-/

namespace SideHOS.Heap

open Kernel Machine Machine.ByteMemory

/-- What a free node has behind its header. -/
def Node.data (node : Node) : Extent := ⟨node.address + 16, node.length⟩

/-- The free nodes of these pages are zero behind their headers. -/
def Blank (bytes : Memory) (pages : List Page) : Prop :=
  ∀ page ∈ pages, ∀ node ∈ page.nodes, ∀ x, node.data.Holds x → bytes x = 0

section Blank

variable {mapping : Mapping} {state after : AllocatorState} {heap next : Layout} {page : Page}
  {pages : List Page} {front back : List Node} {node inner : Node} {bytes memory : Memory}
  {size pointer x : ℕ}

theorem Node.data_within (node : Node) : node.data.Within node.extent := by
  simp only [Node.data, Node.extent, Extent.Within, Extent.stop]
  omega

theorem Node.header_within (node : Node) : node.header.Within node.extent := by
  simp only [Node.header, Node.extent, Extent.Within, Extent.stop]
  omega

theorem Ordered.apart {low high : ℕ} {nodes : List Node} (h : Ordered low high nodes)
    {first second : Node} (hfirst : first ∈ nodes) (hsecond : second ∈ nodes)
    (hne : first ≠ second) : first.extent.Apart second.extent := by
  have hpairwise : nodes.Pairwise fun first second ↦ first.extent.Apart second.extent :=
    h.pairwise.imp Or.inl
  have hsymm : Std.Symm fun first second : Node ↦ first.extent.Apart second.extent :=
    ⟨fun _ _ ↦ Extent.Apart.symm⟩
  exact hpairwise.forall hfirst hsecond hne

/-- Carving writes nothing behind the headers of the nodes that it leaves. -/
theorem carvedBytes_data (hfit : page.Fit front node back size)
    (hinner : inner ∈ front ++ carvedRest node size ++ back) (hx : inner.data.Holds x) :
    carvedBytes bytes page front node back size x = bytes x := by
  have hordered := hfit.carved_ordered
  have hwithin := hordered.within inner hinner
  have hextent := inner.data_within.holds hx
  have hfront : ∀ other ∈ front, ¬ other.header.Holds x := by
    intro other hother hholds
    by_cases heq : other = inner
    · subst heq
      simp only [Node.header, Node.data, Extent.Holds, Extent.stop] at hholds hx
      omega
    · have hapart := hordered.apart (by simp [hother]) hinner heq
      exact hapart.not_holds (other.header_within.holds hholds) hextent
  have hcut : cutBytes bytes node size x = bytes x := by
    rw [List.mem_append, List.mem_append] at hinner
    rcases hinner with (hother | hrest) | hother
    · exact cutBytes_of_outside hfit.le_length
        ((hfit.node_apart (Or.inl hother)).symm.not_holds hextent)
    · unfold carvedRest at hrest
      split_ifs at hrest with hsplit
      · cases hrest
      · obtain rfl := List.mem_singleton.mp hrest
        simp only [Node.data, Extent.Holds, Extent.stop] at hx
        simp only [cutBytes, if_neg hsplit]
        rw [store64_of_outside (by omega), store64_of_outside (by omega),
          store64_of_outside (by omega)]
    · exact cutBytes_of_outside hfit.le_length
        ((hfit.node_apart (Or.inr hother)).symm.not_holds hextent)
  simp only [Node.data, Extent.Holds, Extent.stop] at hx
  have hhead : ¬ Extent.Holds ⟨page.base, 8⟩ x := by
    simp only [Extent.Holds, Extent.stop]
    omega
  rw [carvedBytes, store64_of_outside (by omega), linked_of_outside hhead hfront, hcut]

/-- What carving leaves on the list of a page was on it before. -/
theorem carved_data (hfit : page.Fit front node back size)
    (hinner : inner ∈ front ++ carvedRest node size ++ back) (hx : inner.data.Holds x) :
    ∃ outer ∈ page.nodes, outer.data.Holds x := by
  rw [List.mem_append, List.mem_append] at hinner
  rcases hinner with (hother | hrest) | hother
  · exact ⟨inner, by rw [hfit.nodes_eq]; simp [hother], hx⟩
  · refine ⟨node, hfit.mem, ?_⟩
    have hlength := hfit.le_length
    unfold carvedRest at hrest
    split_ifs at hrest with hsplit
    · cases hrest
    · obtain rfl := List.mem_singleton.mp hrest
      simp only [Node.data, Extent.Holds, Extent.stop, remaining] at hx ⊢
      omega
  · exact ⟨inner, by rw [hfit.nodes_eq]; simp [hother], hx⟩

theorem Blank.congr (h : Blank bytes pages)
    (hkept : ∀ page ∈ pages, ∀ x, page.extent.Holds x → memory x = bytes x) :
    Blank memory pages := by
  intro page hpage node hnode x hx
  rw [hkept page hpage x ((page.node_within hnode).holds (node.data_within.holds hx))]
  exact h page hpage node hnode x hx

theorem Blank.carve (h : Blank state.bytes heap.pages) (hheap : Represents mapping state heap)
    {before behind : List Page} (hpages : heap.pages = before ++ page :: behind)
    (hfit : page.Fit front node back size) :
    Blank (carvedBytes state.bytes page front node back size)
      (before ++ page.carve front node back size hfit :: behind) := by
  have hmem : page ∈ heap.pages := mem_of_eq_middle hpages
  have htouches : Touches page (carvedBlock node size).slot state.bytes
      (carvedBytes state.bytes page front node back size) := touches_carvedBytes hfit
  have hslot : (carvedBlock node size).slot.Within page.extent :=
    (carved_within hfit.le_length).trans (page.node_within hfit.mem)
  intro other hother inner hinner x hx
  rcases mem_middle.mp hother with rfl | hother
  · obtain ⟨outer, houter, hx'⟩ := carved_data hfit hinner hx
    rw [carvedBytes_data hfit hinner hx]
    exact h page hmem outer houter x hx'
  · have hapart := hheap.pages_apart hpages hother
    have hextent := (other.node_within hinner).holds (inner.data_within.holds hx)
    rw [htouches.outside hslot (hapart.not_holds hextent)]
    exact h other (by rw [hpages]; exact mem_middle.mpr (Or.inr hother)) inner hinner x hx

theorem Prepared.blank {totalSize : ℕ} (h : Prepared mapping state heap totalSize after pages)
    (hheap : Represents mapping state heap) (hblank : Blank state.bytes heap.pages) :
    Blank after.bytes pages := by
  cases h with
  | found => exact hblank
  | @fresh frame _ hsmall hallocated hframe hbytes =>
    have hle := (hheap.taken_facts one_pos hallocated hframe).1
    have hword := (hheap.free_facts one_pos hle).2
    rw [hbytes]
    intro page hpage node hnode x hx
    rcases List.mem_cons.mp hpage with rfl | hother
    · obtain rfl := List.mem_singleton.mp hnode
      exact heapPageImage_zero hword hx
    · have hapart := hheap.free_apart hle (strided_le_of_mem (Layout.base_mem hother))
        (hheap.page_facts hother).1 one_pos one_pos
      have hextent := (page.node_within hnode).holds (node.data_within.holds hx)
      rw [heapPageImage_of_outside hword (hapart.symm.not_holds hextent)]
      exact hblank page hother node hnode x hx

/-- A `kmalloc` leaves the nodes blank, and a small block that it gives is zero. -/
theorem Given.blank (h : Given mapping state heap size pointer after next)
    (hheap : Represents mapping state heap) (hblank : Blank state.bytes heap.pages) :
    Blank after.bytes next.pages ∧
      (size ≤ 4040 → ∀ x, (Extent.mk pointer size).Holds x → after.bytes x = 0) := by
  cases h with
  | @small middle pages front back page before behind node hsize hprepared hmiddle hpages _ hfit =>
    have hprior := hprepared.blank hheap hblank
    refine ⟨Blank.carve hprior hmiddle hpages hfit, fun _ x hx ↦ ?_⟩
    have hdata : node.data.Holds x := by
      have hlength := hfit.le_length
      simp only [Node.data, Extent.Holds, Extent.stop] at hx ⊢
      omega
    change carvedBytes middle.bytes page before node behind size x = 0
    rw [carvedBytes_payload hfit hx]
    exact hprior page (mem_of_eq_middle hpages) node hfit.mem x hdata
  | @large middle frame hsize hcount hallocated hframe hbytes hheapPages =>
    have hle := (hheap.taken_facts hcount hallocated hframe).1
    obtain ⟨hne, hword⟩ := hheap.free_facts hcount hle
    refine ⟨hblank.congr fun page hpage x hx ↦ ?_, fun hsmall ↦ absurd hsize (not_lt.mpr hsmall)⟩
    have hapart := hheap.free_apart hle (strided_le_of_mem (Layout.base_mem hpage))
      (hheap.page_facts hpage).1 hcount one_pos
    change middle.bytes x = state.bytes x
    rw [hbytes]
    exact blockImage_of_outside hcount hword hne (hapart.symm.not_holds hx)

/-- What the owners write into their blocks leaves the nodes blank. -/
theorem Represents.blank_writes {blocks : List Block} (h : Represents mapping state heap)
    (hblank : Blank state.bytes heap.pages) (hlive : ∀ block ∈ blocks, heap.Live block)
    (hkept : ∀ x, (∀ block ∈ blocks, ¬ block.room.Holds x) → memory x = state.bytes x) :
    Blank memory heap.pages := by
  intro page hpage node hnode x hx
  rw [hkept x fun block hblock hroom ↦ ?_]
  · exact hblank page hpage node hnode x hx
  · have hcell : block.room.Within block.cell := by
      simp only [Block.room, Block.cell, Extent.Within, Extent.stop]
      omega
    exact (h.cell_apart_node (hlive block hblock) hpage hnode).not_holds (hcell.holds hroom)
      (node.data_within.holds hx)

end Blank

end SideHOS.Heap
