import SideHOS.Heap.Page

/-!
# What one `kfree` merges

On a page that only `kmalloc` and `kfree` have changed, every node ends at least eight bytes before
the blocks after it and more than eight bytes before the nodes after it.  On such a page the merge
loop merges the freed node with one neighbour at most: a merged node ends eight bytes too early to
meet the test of the loop again.
-/

namespace SideHOS.Heap

open Machine

/-- The node ends eight bytes before the slot, or starts after it. -/
def Node.ClearOf (node : Node) (slot : Extent) : Prop :=
  node.extent.stop + 8 ≤ slot.start ∨ slot.stop ≤ node.address

/-- Each node ends more than eight bytes before the nodes after it. -/
def Spread (nodes : List Node) : Prop :=
  nodes.Pairwise fun low high ↦ low.extent.stop + 8 < high.address

/-- A freed node has joined the nodes before and after it: merged with the node below it, or with
the node above it, or on its own. -/
inductive Joined (node : Node) (before after : List Node) : List Node → Prop
  | below {front : List Node} {low : Node} (hbefore : before = front ++ [low])
      (hmerge : Mergeable low node) : Joined node before after (front ++ low.merge node :: after)
  | above {high : Node} {back : List Node} (hafter : after = high :: back)
      (hlow : ∀ low ∈ before, ¬ Mergeable low node) (hmerge : Mergeable node high) :
      Joined node before after (before ++ node.merge high :: back)
  | alone (hlow : ∀ low ∈ before, ¬ Mergeable low node)
      (hhigh : ∀ high ∈ after, ¬ Mergeable node high) :
      Joined node before after (before ++ node :: after)

section Joined

variable {node : Node} {nodes before after joined : List Node} {slot : Extent}

theorem Spread.not_mergeable {low high : Node} (h : low.extent.stop + 8 < high.address) :
    ¬ Mergeable low high := h.ne

/-- The merge loop leaves a spread list alone. -/
theorem mergeFrom_of_spread (h : Spread (node :: nodes)) :
    mergeFrom node nodes = node :: nodes := by
  induction nodes generalizing node with
  | nil => rfl
  | cons next rest ih =>
    obtain ⟨hnode, hrest⟩ := List.pairwise_cons.mp h
    have hne : ¬ Mergeable node next := Spread.not_mergeable (hnode next List.mem_cons_self)
    rw [mergeFrom, if_neg hne, ih hrest]

/-- From a node before a spread list, the merge loop merges its first node at most. -/
theorem mergeFrom_freed (hafter : Spread after)
    (hhigh : ∀ high ∈ after, node.extent.stop + 8 ≤ high.address) :
    (∃ high back, after = high :: back ∧ Mergeable node high ∧
      mergeFrom node after = node.merge high :: back) ∨
      (∀ high ∈ after, ¬ Mergeable node high) ∧ mergeFrom node after = node :: after := by
  cases after with
  | nil => exact Or.inr ⟨nofun, rfl⟩
  | cons high back =>
    obtain ⟨hback, -⟩ := List.pairwise_cons.mp hafter
    by_cases hmerge : Mergeable node high
    · have hstop := hmerge.merge_stop
      have hspread : Spread (node.merge high :: back) := by
        refine List.pairwise_cons.mpr ⟨fun next hnext ↦ ?_, hafter.of_cons⟩
        have hgap := hback next hnext
        omega
      refine Or.inl ⟨high, back, rfl, hmerge, ?_⟩
      rw [mergeFrom, if_pos hmerge, mergeFrom_of_spread hspread]
    · refine Or.inr ⟨?_, by rw [mergeFrom, if_neg hmerge, mergeFrom_of_spread hafter]⟩
      refine List.forall_mem_cons.mpr ⟨hmerge, fun next hnext ↦ Spread.not_mergeable ?_⟩
      have hgap := hback next hnext
      have hle := hhigh high List.mem_cons_self
      simp only [Node.extent, Extent.stop] at hgap hle ⊢
      omega

/-- Inserted into a spread list and merged, a node has joined it. -/
theorem coalesce_joined (hspread : Spread (before ++ after))
    (hlow : ∀ low ∈ before, low.extent.stop + 8 ≤ node.address)
    (hhigh : ∀ high ∈ after, node.extent.stop + 8 ≤ high.address) :
    Joined node before after (coalesce node after before) := by
  obtain ⟨hbefore, hafter, -⟩ := List.pairwise_append.mp hspread
  have hrest := mergeFrom_freed hafter hhigh
  rcases List.eq_nil_or_concat before with rfl | ⟨front, low, rfl⟩
  · rcases hrest with ⟨high, back, rfl, hmerge, heq⟩ | ⟨hnot, heq⟩
    · rw [coalesce, heq]
      exact Joined.above rfl (by simp) hmerge
    · rw [coalesce, heq]
      exact Joined.alone (by simp) hnot
  · rw [List.concat_eq_append] at hbefore hlow ⊢
    rw [coalesce_concat, mergeFrom]
    have hfront := (List.pairwise_append.mp hbefore).2.2
    by_cases hmerge : Mergeable low node
    · have hstop := hmerge.merge_stop
      have htail : Spread (low.merge node :: after) := by
        refine List.pairwise_cons.mpr ⟨fun high hmem ↦ ?_, hafter⟩
        have hgap := hhigh high hmem
        omega
      rw [if_pos hmerge, mergeFrom_of_spread htail]
      exact Joined.below rfl hmerge
    · have hnone : ∀ other ∈ front ++ [low], ¬ Mergeable other node := by
        rw [List.forall_mem_append, List.forall_mem_singleton]
        refine ⟨fun other hother ↦ Spread.not_mergeable ?_, hmerge⟩
        have hgap := hfront other hother low (List.mem_singleton_self _)
        have hle := hlow low (by simp)
        simp only [Node.extent, Extent.stop] at hgap hle ⊢
        omega
      rw [if_neg hmerge]
      rcases hrest with ⟨high, back, rfl, habove, heq⟩ | ⟨hnot, heq⟩
      · rw [heq, List.append_cons front low (node.merge high :: back)]
        exact Joined.above rfl hnone habove
      · rw [heq, List.append_cons front low (node :: after)]
        exact Joined.alone hnone hnot

/-- A list that a node has joined is spread. -/
theorem Joined.spread (h : Joined node before after joined) (hspread : Spread (before ++ after))
    (hlow : ∀ low ∈ before, low.extent.stop + 8 ≤ node.address)
    (hhigh : ∀ high ∈ after, node.extent.stop + 8 ≤ high.address) : Spread joined := by
  obtain ⟨hbefore, hafter, hacross⟩ := List.pairwise_append.mp hspread
  have hstrict (hnot : ∀ low ∈ before, ¬ Mergeable low node) :
      ∀ low ∈ before, low.extent.stop + 8 < node.address :=
    fun low hmem ↦ lt_of_le_of_ne (hlow low hmem) (hnot low hmem)
  cases h with
  | @below front low hfront hmerge =>
    subst hfront
    have hstop := hmerge.merge_stop
    obtain ⟨hfront, -, hlast⟩ := List.pairwise_append.mp hbefore
    refine List.pairwise_append.mpr ⟨hfront, List.pairwise_cons.mpr ⟨fun high hmem ↦ ?_, hafter⟩,
      fun first hfirst second hsecond ↦ ?_⟩
    · have hgap := hhigh high hmem
      omega
    · rcases List.mem_cons.mp hsecond with rfl | hsecond
      · exact hlast first hfirst low (List.mem_singleton_self _)
      · exact hacross first (List.mem_append_left _ hfirst) second hsecond
  | @above high back hback hnot hmerge =>
    subst hback
    have hstop := hmerge.merge_stop
    obtain ⟨hfirst, hback⟩ := List.pairwise_cons.mp hafter
    refine List.pairwise_append.mpr ⟨hbefore, List.pairwise_cons.mpr ⟨fun next hnext ↦ ?_, hback⟩,
      fun first hmem second hsecond ↦ ?_⟩
    · have hgap := hfirst next hnext
      omega
    · rcases List.mem_cons.mp hsecond with rfl | hsecond
      · exact hstrict hnot first hmem
      · exact hacross first hmem second (List.mem_cons_of_mem _ hsecond)
  | alone hnot hnone =>
    refine List.pairwise_append.mpr ⟨hbefore, List.pairwise_cons.mpr ⟨fun high hmem ↦ ?_, hafter⟩,
      fun first hmem second hsecond ↦ ?_⟩
    · exact lt_of_le_of_ne (hhigh high hmem) (hnone high hmem)
    · rcases List.mem_cons.mp hsecond with rfl | hsecond
      · exact hstrict hnot first hmem
      · exact hacross first hmem second hsecond

/-- A merged node is clear of a slot that both nodes are clear of. -/
theorem Mergeable.clearOf {low high : Node} (h : Mergeable low high) (hslot : 0 < slot.length)
    (hlow : low.ClearOf slot) (hhigh : high.ClearOf slot) : (low.merge high).ClearOf slot := by
  simp only [Mergeable, Node.ClearOf, Node.merge, Node.extent, Extent.stop] at *
  omega

/-- What all nodes are clear of, the nodes are clear of after another has joined them. -/
theorem Joined.clearOf (h : Joined node before after joined) (hslot : 0 < slot.length)
    (hnode : node.ClearOf slot) (hnodes : ∀ other ∈ before ++ after, other.ClearOf slot) :
    ∀ other ∈ joined, other.ClearOf slot := by
  rw [List.forall_mem_append] at hnodes
  cases h with
  | below hfront hmerge =>
    subst hfront
    obtain ⟨hfront, hlow⟩ := List.forall_mem_append.mp hnodes.1
    rw [List.forall_mem_append, List.forall_mem_cons]
    exact ⟨hfront, hmerge.clearOf hslot (hlow _ (List.mem_singleton_self _)) hnode, hnodes.2⟩
  | above hback hnot hmerge =>
    subst hback
    obtain ⟨hhigh, hback⟩ := List.forall_mem_cons.mp hnodes.2
    rw [List.forall_mem_append, List.forall_mem_cons]
    exact ⟨hnodes.1, hmerge.clearOf hslot hnode hhigh, hback⟩
  | alone hnot hnone =>
    rw [List.forall_mem_append, List.forall_mem_cons]
    exact ⟨hnodes.1, hnode, hnodes.2⟩

end Joined

namespace Page

/-- The nodes are spread, and clear of the blocks. -/
structure Tidy (page : Page) : Prop where
  spread : Spread page.nodes
  clear : ∀ block ∈ page.blocks, ∀ node ∈ page.nodes, node.ClearOf block.slot

variable {page : Page}

theorem Tidy.fresh (base : ℕ) : (Page.fresh base).Tidy where
  spread := List.pairwise_singleton _ _
  clear := by simp [Page.fresh]

section Carve

variable {front back : List Node} {node : Node} {size : ℕ}

theorem Tidy.carve (h : page.Tidy) (hfit : page.Fit front node back size) :
    (page.carve front node back size hfit).Tidy := by
  have hspread := h.spread
  rw [hfit.nodes_eq] at hspread
  obtain ⟨hfront, hnode, hacross⟩ := List.pairwise_append.mp hspread
  obtain ⟨hnode, hback⟩ := List.pairwise_cons.mp hnode
  have hbelow (other : Node) (hother : other ∈ front) : other.extent.stop + 8 < node.address :=
    hacross other hother node List.mem_cons_self
  have hrest (inner : Node) (hinner : inner ∈ carvedRest node size) :=
    carvedRest_within hfit.le_length hinner
  have hslot := carved_within hfit.le_length
  have hstart : (carvedBlock node size).slot.start = node.address := rfl
  constructor
  · refine List.pairwise_append.mpr ⟨List.pairwise_append.mpr ⟨hfront, ?_, ?_⟩, hback, ?_⟩
    · unfold carvedRest
      split_ifs <;> simp
    · exact fun other hother inner hinner ↦
        (hbelow other hother).trans_le (hrest inner hinner).1.1
    · intro other hother later hlater
      rcases List.mem_append.mp hother with hother | hinner
      · exact hacross other hother later (List.mem_cons_of_mem _ hlater)
      · have hle := (hrest other hinner).1.2
        have hlt := hnode later hlater
        omega
  · intro block hblock
    rcases Finset.mem_insert.mp hblock with rfl | hblock
    · intro other hother
      rcases List.mem_append.mp hother with hother | hother
      · rcases List.mem_append.mp hother with hother | hinner
        · exact Or.inl (hstart ▸ (hbelow other hother).le)
        · refine Or.inr ((hrest other hinner).2.resolve_right fun hle ↦ ?_)
          have hle' := (hrest other hinner).1.1
          simp only [Block.slot, Node.extent, Extent.stop, carvedBlock] at hle hle'
          omega
      · exact Or.inr (hslot.2.trans (by have hlt := hnode other hother; omega))
    · intro other hother
      have hclear := h.clear block hblock
      rw [hfit.nodes_eq] at hclear
      rcases List.mem_append.mp hother with hother | hother
      · rcases List.mem_append.mp hother with hother | hinner
        · exact hclear other (List.mem_append_left _ hother)
        · have hwithin := (hrest other hinner).1
          rcases hclear node (by simp) with hle | hle
          · exact Or.inl (by have hstop := hwithin.2; omega)
          · exact Or.inr (hle.trans hwithin.1)
      · exact hclear other (by simp [hother])

theorem kept_tidy : Kept Page.Tidy := ⟨Tidy.fresh, fun hfit h ↦ h.carve hfit⟩

end Carve

section Release

variable {block : Block}

/-- The gaps below and above a block that is freed. -/
theorem Tidy.gaps (h : page.Tidy) (hblock : block ∈ page.blocks) :
    (∀ low ∈ nodesBefore block page.nodes,
      low.extent.stop + 8 ≤ (freedNode block).address) ∧
    ∀ high ∈ nodesAfter block page.nodes,
      (freedNode block).extent.stop + 8 ≤ high.address := by
  have hwithin := page.blocks_within block hblock
  have hordered := page.ordered.insert (page.nodes_apart block hblock)
    ⟨by simp only [Block.slot]; omega, hwithin.2⟩
  obtain ⟨-, hafter, hbefore⟩ := List.pairwise_append.mp hordered.pairwise
  have hafter := (List.pairwise_cons.mp hafter).1
  have hmem {node : Node} (hnode : node ∈ nodesBefore block page.nodes ++
      nodesAfter block page.nodes) : node ∈ page.nodes := by rwa [before_append_after] at hnode
  have hclear (node : Node) (hnode : node ∈ page.nodes) := h.clear block hblock node hnode
  constructor
  · intro low hlow
    have hlt := hbefore low hlow (freedNode block) List.mem_cons_self
    have hside := hclear low (hmem (List.mem_append_left _ hlow))
    simp only [Node.ClearOf, Block.slot, freedNode, Node.extent, Extent.stop] at hlt hside ⊢
    omega
  · intro high hhigh
    have hlt := hafter high hhigh
    have hside := hclear high (hmem (List.mem_append_right _ hhigh))
    simp only [Node.ClearOf, Block.slot, freedNode, Node.extent, Extent.stop] at hlt hside ⊢
    omega

/-- On a tidy page, `kfree` merges the freed node with one neighbour at most. -/
theorem Tidy.joined (h : page.Tidy) (hblock : block ∈ page.blocks) :
    Joined (freedNode block) (nodesBefore block page.nodes) (nodesAfter block page.nodes)
      (page.releasedNodes block) := by
  obtain ⟨hlow, hhigh⟩ := h.gaps hblock
  exact coalesce_joined (by rw [before_append_after]; exact h.spread) hlow hhigh

theorem Tidy.release (h : page.Tidy) (hblock : block ∈ page.blocks) :
    (page.release block hblock).Tidy := by
  obtain ⟨hlow, hhigh⟩ := h.gaps hblock
  have hjoined := h.joined hblock
  constructor
  · exact hjoined.spread (by rw [before_append_after]; exact h.spread) hlow hhigh
  · intro other hother
    obtain ⟨hne, hmem⟩ := Finset.mem_erase.mp hother
    refine hjoined.clearOf (by simp only [Block.slot]; omega) ?_ ?_
    · have hapart := page.blocks_apart block hblock other hmem (Ne.symm hne)
      simp only [Node.ClearOf, Block.slot, freedNode, Node.extent, Extent.Apart, Extent.stop]
        at hapart ⊢
      omega
    · rw [before_append_after]
      exact h.clear other hmem

end Release

end Page

end SideHOS.Heap
