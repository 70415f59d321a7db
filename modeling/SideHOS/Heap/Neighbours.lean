import SideHOS.Heap.Tidy

/-!
# Free neighbours on a page

Free neighbours should be one node: between two nodes of a page there should be a live block.  A
new page has this property and `kmalloc` keeps it.  `kfree` keeps it exactly if the freed block
borders on one free node at most, and meets the merge test with this node: when a block between
two nodes is freed, the merge loop joins it with one of them only.
-/

namespace SideHOS.Heap

open Machine

namespace Page

def Between (page : Page) (low high : ℕ) : Prop :=
  ∃ block ∈ page.blocks, low < block.pointer ∧ block.pointer + block.size ≤ high

def Coalesced (page : Page) : Prop :=
  page.nodes.Pairwise fun low high ↦ page.Between low.address high.address

/-- No other block of the page lies between a node and the block. -/
def Borders (page : Page) (block : Block) (node : ℕ) : Prop :=
  ∀ other ∈ page.blocks, other ≠ block →
    ¬ (node < other.pointer ∧ other.pointer + other.size ≤ block.pointer) ∧
      ¬ (block.pointer < other.pointer ∧ other.pointer + other.size ≤ node)

/-- The block borders on one node at most, and meets the merge test with it. -/
def Joins (page : Page) (block : Block) : Prop :=
  ∀ node ∈ page.nodes, page.Borders block node.address →
    (Mergeable node (freedNode block) ∨ Mergeable (freedNode block) node) ∧
      ∀ other ∈ page.nodes, page.Borders block other.address → other = node

variable {page : Page} {block : Block} {low middle high : ℕ}

theorem Between.trans (hlow : page.Between low middle) (hhigh : page.Between middle high) :
    page.Between low high := by
  obtain ⟨block, hblock, hlt, hle⟩ := hlow
  obtain ⟨other, -, hmiddle, hend⟩ := hhigh
  exact ⟨block, hblock, hlt, by omega⟩

theorem Coalesced.fresh (base : ℕ) : (Page.fresh base).Coalesced := List.pairwise_singleton _ _

section Carve

variable {front back : List Node} {node : Node} {size : ℕ}

theorem Coalesced.carve (h : page.Coalesced) (hfit : page.Fit front node back size) :
    (page.carve front node back size hfit).Coalesced := by
  have hbetween {low high : ℕ} (hbefore : page.Between low high) :
      (page.carve front node back size hfit).Between low high := by
    obtain ⟨block, hblock, hrange⟩ := hbefore
    exact ⟨block, Finset.mem_insert_of_mem hblock, hrange⟩
  have hcoalesced := h
  unfold Coalesced at hcoalesced
  rw [hfit.nodes_eq] at hcoalesced
  obtain ⟨hfront, hnode, hacross⟩ := List.pairwise_append.mp hcoalesced
  obtain ⟨hnode, hback⟩ := List.pairwise_cons.mp hnode
  have hordered := page.ordered.pairwise
  rw [hfit.nodes_eq] at hordered
  have hbelow := (List.pairwise_append.mp hordered).2.2
  have hcarved (inner : Node) (hinner : inner ∈ carvedRest node size) :
      node.address ≤ inner.address ∧ (page.carve front node back size hfit).Between node.address
        inner.address := by
    obtain ⟨hwithin, hapart⟩ := carvedRest_within hfit.le_length hinner
    refine ⟨hwithin.1, carvedBlock node size, Finset.mem_insert_self _ _, ?_⟩
    have hsize := @size_le_carved size node
    simp only [Block.slot, Node.extent, carvedBlock, Extent.Apart, Extent.Within, Extent.stop]
      at hapart hwithin hsize ⊢
    omega
  have hrest : (carvedRest node size).Pairwise fun low high ↦
      (page.carve front node back size hfit).Between low.address high.address := by
    unfold carvedRest
    split_ifs <;> simp
  refine List.pairwise_append.mpr ⟨List.pairwise_append.mpr ⟨hfront.imp hbetween, hrest, ?_⟩,
    hback.imp hbetween, ?_⟩
  · intro other hother inner hinner
    exact (hbetween (hacross other hother node List.mem_cons_self)).trans (hcarved inner hinner).2
  · intro other hother later hlater
    rcases List.mem_append.mp hother with hother | hinner
    · exact hbetween (hacross other hother later (List.mem_cons_of_mem _ hlater))
    · obtain ⟨between, hblock, hlt, hle⟩ := hnode later hlater
      refine ⟨between, Finset.mem_insert_of_mem hblock, ?_, hle⟩
      have hapart := page.nodes_apart between hblock node hfit.mem
      have hwithin := (carvedRest_within hfit.le_length hinner).1
      simp only [Block.slot, Node.extent, Extent.Apart, Extent.Within, Extent.stop]
        at hapart hwithin
      omega

theorem kept_coalesced : Kept Page.Coalesced := ⟨Coalesced.fresh, fun hfit h ↦ h.carve hfit⟩

end Carve

section Release

variable {node : Node} (hblock : block ∈ page.blocks)

/-- A block between two addresses that is not the freed one still lies between them. -/
theorem between_release {other : Block} (hother : other ∈ page.blocks) (hne : other ≠ block)
    (hlt : low < other.pointer) (hle : other.pointer + other.size ≤ high) :
    (page.release block hblock).Between low high :=
  ⟨other, Finset.mem_erase.mpr ⟨hne, hother⟩, hlt, hle⟩

/-- Another block lies below the node made of the freed one, or above it. -/
theorem other_side (hblock : block ∈ page.blocks) {other : Block} (hother : other ∈ page.blocks)
    (hne : other ≠ block) :
    other.pointer + other.size ≤ (freedNode block).address ∨
      (freedNode block).extent.stop + 32 ≤ other.pointer := by
  have hapart := page.blocks_apart other hother block hblock hne
  have hsize := page.size_le other hother
  have hwithin := page.blocks_within block hblock
  have hother := page.blocks_within other hother
  simp only [Block.slot, freedNode, Node.extent, Extent.Apart, Extent.stop] at *
  omega

/-- A node below the freed block borders on it unless another block lies between. -/
theorem borders_below (hnode : node.extent.stop + 8 ≤ (freedNode block).address) :
    page.Borders block node.address ↔
      ¬ (page.release block hblock).Between node.address (freedNode block).address := by
  have hpointer := page.blocks_within block hblock
  constructor
  · rintro hborders ⟨other, hother, hlt, hle⟩
    obtain ⟨hne, hmem⟩ := Finset.mem_erase.mp hother
    refine (hborders other hmem hne).1 ⟨hlt, hle.trans ?_⟩
    simp only [freedNode]
    omega
  · intro hnone other hother hne
    refine ⟨fun hrange ↦ hnone (between_release hblock hother hne hrange.1 ?_), fun hrange ↦ ?_⟩
    · rcases other_side hblock hother hne with hside | hside
      · exact hside
      · simp only [freedNode, Node.extent, Extent.stop] at hside
        omega
    · simp only [freedNode, Node.extent, Extent.stop] at hnode
      omega

/-- A node above the freed block borders on it unless another block lies between. -/
theorem borders_above (hnode : (freedNode block).extent.stop + 8 ≤ node.address) :
    page.Borders block node.address ↔
      ¬ (page.release block hblock).Between (freedNode block).address node.address := by
  have hpointer := page.blocks_within block hblock
  simp only [freedNode, Node.extent, Extent.stop] at hnode
  constructor
  · rintro hborders ⟨other, hother, hlt, hle⟩
    obtain ⟨hne, hmem⟩ := Finset.mem_erase.mp hother
    refine (hborders other hmem hne).2 ⟨?_, hle⟩
    rcases other_side hblock hmem hne with hside | hside
    · omega
    · simp only [freedNode, Node.extent, Extent.stop] at hside
      omega
  · intro hnone other hother hne
    refine ⟨fun hrange ↦ ?_, fun hrange ↦ hnone (between_release hblock hother hne ?_ hrange.2)⟩
    · omega
    · simp only [freedNode]
      omega

/-- No block fits between the freed one and a node below that it is merged with. -/
theorem Tidy.between_below (h : page.Tidy) (hnode : node ∈ page.nodes)
    (hmerge : Mergeable node (freedNode block)) :
    (page.release block hblock).Between node.address high ↔
      (page.release block hblock).Between (freedNode block).address high := by
  constructor
  · rintro ⟨other, hother, hlt, hle⟩
    obtain ⟨hne, hmem⟩ := Finset.mem_erase.mp hother
    refine between_release hblock hmem hne ?_ hle
    have hwithin := page.blocks_within other hmem
    have hclear := h.clear other hmem node hnode
    rcases other_side hblock hmem hne with hside | hside
    · have hsize := page.size_le other hmem
      have hapart := page.blocks_apart other hmem block hblock hne
      simp only [Mergeable, Node.ClearOf, Block.slot, freedNode, Node.extent, Extent.Apart,
        Extent.stop] at *
      omega
    · simp only [Node.extent, Extent.stop] at hside
      omega
  · rintro ⟨other, hother, hlt, hle⟩
    refine ⟨other, hother, ?_, hle⟩
    simp only [Mergeable, Node.extent, Extent.stop] at hmerge
    omega

/-- No block fits between the freed one and a node above that it is merged with. -/
theorem Tidy.not_between_above (hmerge : Mergeable (freedNode block) node) :
    ¬ (page.release block hblock).Between (freedNode block).address node.address := by
  rintro ⟨other, hother, hlt, hle⟩
  obtain ⟨hne, hmem⟩ := Finset.mem_erase.mp hother
  rcases other_side hblock hmem hne with hside | hside
  · omega
  · simp only [Mergeable] at hmerge
    omega

theorem Between.mono_right (h : page.Between low middle) (hle : middle ≤ high) :
    page.Between low high := by
  obtain ⟨other, hother, hlt, hend⟩ := h
  exact ⟨other, hother, hlt, hend.trans hle⟩

theorem Between.mono_left (h : page.Between middle high) (hle : low ≤ middle) :
    page.Between low high := by
  obtain ⟨other, hother, hlt, hend⟩ := h
  exact ⟨other, hother, hle.trans_lt hlt, hend⟩

/-- What stands before and after a block that is freed: nodes with gaps to it, and between nodes on
one side the same blocks as before. -/
structure Around (page : Page) (block : Block) (hblock : block ∈ page.blocks)
    (before after : List Node) : Prop where
  nodes_eq : page.nodes = before ++ after
  gap_below : ∀ low ∈ before, low.extent.stop + 8 ≤ (freedNode block).address
  gap_above : ∀ high ∈ after, (freedNode block).extent.stop + 8 ≤ high.address
  between_before : before.Pairwise fun first second ↦
    (page.release block hblock).Between first.address second.address
  between_after : after.Pairwise fun first second ↦
    (page.release block hblock).Between first.address second.address

theorem Tidy.around (h : page.Tidy) (hcoalesced : page.Coalesced) :
    Around page block hblock (nodesBefore block page.nodes) (nodesAfter block page.nodes) := by
  obtain ⟨hlow, hhigh⟩ := h.gaps hblock
  have hpointer := page.blocks_within block hblock
  unfold Coalesced at hcoalesced
  rw [← before_append_after block page.nodes] at hcoalesced
  obtain ⟨hbefore, hafter, -⟩ := List.pairwise_append.mp hcoalesced
  refine ⟨(before_append_after block page.nodes).symm, hlow, hhigh, ?_, ?_⟩
  · refine hbefore.imp_of_mem fun {first second} _ hsecond hbetween ↦ ?_
    obtain ⟨other, hother, hlt, hle⟩ := hbetween
    have hgap := hlow second hsecond
    refine between_release hblock hother (fun heq ↦ ?_) hlt hle
    simp only [heq, freedNode, Node.extent, Extent.stop] at hle hgap
    omega
  · refine hafter.imp_of_mem fun {first second} hfirst _ hbetween ↦ ?_
    obtain ⟨other, hother, hlt, hle⟩ := hbetween
    have hgap := hhigh first hfirst
    refine between_release hblock hother (fun heq ↦ ?_) hlt hle
    simp only [heq, freedNode, Node.extent, Extent.stop] at hlt hgap
    omega

section Around

variable {hblock} {before after front back : List Node} {below above : Node}

/-- The freed block was merged with the node below it: then no node above may border on it. -/
theorem Around.joins_below (h : Around page block hblock (front ++ [below]) after)
    (hpage : page.Tidy) (hmerge : Mergeable below (freedNode block)) :
    ((front ++ below.merge (freedNode block) :: after).Pairwise fun first second ↦
      (page.release block hblock).Between first.address second.address) ↔ page.Joins block := by
  have hmem : below ∈ page.nodes := by simp [h.nodes_eq]
  have hadjacent {high : ℕ} := @Tidy.between_below page block high below hblock hpage hmem hmerge
  obtain ⟨hfront, -, hlast⟩ := List.pairwise_append.mp h.between_before
  have hlast (first : Node) (hfirst : first ∈ front) :=
    hlast first hfirst below (List.mem_singleton_self _)
  have hborders : page.Borders block below.address := by
    refine (borders_below hblock (h.gap_below below (by simp))).mpr fun hbetween ↦ ?_
    obtain ⟨other, -, hlt, hle⟩ := hadjacent.mp hbetween
    omega
  trans ∀ high ∈ after, (page.release block hblock).Between (freedNode block).address high.address
  · constructor
    · intro hpairwise high hhigh
      have hrest := (List.pairwise_append.mp hpairwise).2.1
      exact hadjacent.mp ((List.pairwise_cons.mp hrest).1 high hhigh)
    · intro hgap
      refine List.pairwise_append.mpr ⟨hfront, List.pairwise_cons.mpr
        ⟨fun high hhigh ↦ hadjacent.mpr (hgap high hhigh), h.between_after⟩,
        fun first hfirst second hsecond ↦ ?_⟩
      rcases List.mem_cons.mp hsecond with rfl | hsecond
      · exact hlast first hfirst
      · exact (hlast first hfirst).trans (hadjacent.mpr (hgap second hsecond))
  · constructor
    · intro hgap
      have honly : ∀ node ∈ page.nodes, page.Borders block node.address → node = below := by
        rw [h.nodes_eq]
        intro node hnode hnodeBorders
        rcases List.mem_append.mp hnode with hnode | hnode
        · rcases List.mem_append.mp hnode with hfirst | hlow
          · refine absurd ((hlast node hfirst).mono_right ?_)
              ((borders_below hblock (h.gap_below node hnode)).mp hnodeBorders)
            simp only [Mergeable, Node.extent, Extent.stop] at hmerge
            omega
          · exact List.mem_singleton.mp hlow
        · exact absurd (hgap node hnode)
            ((borders_above hblock (h.gap_above node hnode)).mp hnodeBorders)
      intro node hnode hnodeBorders
      obtain rfl := honly node hnode hnodeBorders
      exact ⟨Or.inl hmerge, honly⟩
    · intro hjoins high hhigh
      have hgap := h.gap_above high hhigh
      by_contra hnone
      have heq := (hjoins below hmem hborders).2 high (by simp [h.nodes_eq, hhigh])
        ((borders_above hblock hgap).mpr hnone)
      simp only [heq, Mergeable, Node.extent, Extent.stop] at hmerge hgap
      omega

/-- The freed block was merged with the node above it: then no node below may border on it. -/
theorem Around.joins_above (h : Around page block hblock before (above :: back))
    (hmerge : Mergeable (freedNode block) above) :
    ((before ++ (freedNode block).merge above :: back).Pairwise fun first second ↦
      (page.release block hblock).Between first.address second.address) ↔ page.Joins block := by
  have hmem : above ∈ page.nodes := by simp [h.nodes_eq]
  obtain ⟨hfirst, hback⟩ := List.pairwise_cons.mp h.between_after
  have hborders : page.Borders block above.address :=
    (borders_above hblock (h.gap_above above List.mem_cons_self)).mpr
      (Tidy.not_between_above hblock hmerge)
  have hle : (freedNode block).address ≤ above.address := by
    simp only [Mergeable, Node.extent, Extent.stop] at hmerge
    omega
  have hnext (next : Node) (hnext : next ∈ back) :=
    (hfirst next hnext).mono_left hle
  trans ∀ low ∈ before, (page.release block hblock).Between low.address (freedNode block).address
  · constructor
    · intro hpairwise low hlow
      exact (List.pairwise_append.mp hpairwise).2.2 low hlow ((freedNode block).merge above)
        List.mem_cons_self
    · intro hgap
      refine List.pairwise_append.mpr ⟨h.between_before, List.pairwise_cons.mpr ⟨hnext, hback⟩,
        fun first hfirst second hsecond ↦ ?_⟩
      rcases List.mem_cons.mp hsecond with rfl | hsecond
      · exact hgap first hfirst
      · exact (hgap first hfirst).trans (hnext second hsecond)
  · constructor
    · intro hgap
      have honly : ∀ node ∈ page.nodes, page.Borders block node.address → node = above := by
        rw [h.nodes_eq]
        intro node hnode hnodeBorders
        rcases List.mem_append.mp hnode with hnode | hnode
        · exact absurd (hgap node hnode)
            ((borders_below hblock (h.gap_below node hnode)).mp hnodeBorders)
        · refine (List.mem_cons.mp hnode).resolve_right fun hlater ↦ ?_
          exact (borders_above hblock (h.gap_above node hnode)).mp hnodeBorders (hnext node hlater)
      intro node hnode hnodeBorders
      obtain rfl := honly node hnode hnodeBorders
      exact ⟨Or.inr hmerge, honly⟩
    · intro hjoins low hlow
      have hgap := h.gap_below low hlow
      by_contra hnone
      have heq := (hjoins above hmem hborders).2 low (by simp [h.nodes_eq, hlow])
        ((borders_below hblock hgap).mpr hnone)
      simp only [heq, Mergeable, Node.extent, Extent.stop] at hmerge hgap
      omega

/-- The freed block was not merged: then no node may border on it. -/
theorem Around.joins_alone (h : Around page block hblock before after)
    (hlow : ∀ low ∈ before, ¬ Mergeable low (freedNode block))
    (hhigh : ∀ high ∈ after, ¬ Mergeable (freedNode block) high) :
    ((before ++ freedNode block :: after).Pairwise fun first second ↦
      (page.release block hblock).Between first.address second.address) ↔ page.Joins block := by
  trans (∀ low ∈ before,
      (page.release block hblock).Between low.address (freedNode block).address) ∧
    ∀ high ∈ after, (page.release block hblock).Between (freedNode block).address high.address
  · constructor
    · intro hpairwise
      obtain ⟨-, hrest, hacross⟩ := List.pairwise_append.mp hpairwise
      exact ⟨fun low hmem ↦ hacross low hmem _ List.mem_cons_self, (List.pairwise_cons.mp hrest).1⟩
    · rintro ⟨hgapLow, hgapHigh⟩
      refine List.pairwise_append.mpr ⟨h.between_before, List.pairwise_cons.mpr
        ⟨hgapHigh, h.between_after⟩, fun first hmem second hsecond ↦ ?_⟩
      rcases List.mem_cons.mp hsecond with rfl | hsecond
      · exact hgapLow first hmem
      · exact (hgapLow first hmem).trans (hgapHigh second hsecond)
  · unfold Joins
    simp only [h.nodes_eq, List.mem_append]
    constructor
    · rintro ⟨hgapLow, hgapHigh⟩ node (hnode | hnode) hborders
      · exact absurd (hgapLow node hnode)
          ((borders_below hblock (h.gap_below node hnode)).mp hborders)
      · exact absurd (hgapHigh node hnode)
          ((borders_above hblock (h.gap_above node hnode)).mp hborders)
    · intro hjoins
      constructor
      · intro low hmem
        have hle := h.gap_below low hmem
        by_contra hgap
        rcases (hjoins low (Or.inl hmem) ((borders_below hblock hle).mpr hgap)).1 with
          hmerge | hmerge
        · exact hlow low hmem hmerge
        · simp only [Mergeable, Node.extent, Extent.stop] at hmerge hle
          omega
      · intro high hmem
        have hle := h.gap_above high hmem
        by_contra hgap
        rcases (hjoins high (Or.inr hmem) ((borders_above hblock hle).mpr hgap)).1 with
          hmerge | hmerge
        · simp only [Mergeable, Node.extent, Extent.stop] at hmerge hle
          omega
        · exact hhigh high hmem hmerge

end Around

/-- After `kfree`, a block lies between any two nodes exactly if the freed block borders on one
node at most and meets the merge test with it. -/
theorem Tidy.coalesced_release_iff (h : page.Tidy) (hcoalesced : page.Coalesced) :
    (page.release block hblock).Coalesced ↔ page.Joins block := by
  have haround := h.around hblock hcoalesced
  have hjoined := h.joined hblock
  change (page.releasedNodes block).Pairwise _ ↔ _
  generalize nodesBefore block page.nodes = before at *
  generalize nodesAfter block page.nodes = after at *
  generalize page.releasedNodes block = released at *
  cases hjoined with
  | below hbefore hmerge =>
    subst hbefore
    exact haround.joins_below h hmerge
  | above hafter hlow hmerge =>
    subst hafter
    exact haround.joins_above hmerge
  | alone hlow hhigh => exact haround.joins_alone hlow hhigh

end Release

end Page

end SideHOS.Heap
