import SideHOS.Heap.Conservation
import SideHOS.Heap.Neighbours
import SideHOS.Heap.Ownership

/-!
# Coalescing

The runs of `kmalloc` and `kfree` in which free neighbours are always one node.  They are the runs
in which every freed block borders on one free node at most and meets the merge test with it.
-/

namespace SideHOS.Heap

open Kernel Linked Machine Machine.Word64 Machine.ByteMemory Sharing Sharing.Program Transition

def LiveBetween (config : HeapConfig) (low high : ℕ) : Prop :=
  ∃ block ∈ config.live, low < block.pointer ∧ block.pointer + block.size ≤ high

/-- On every heap page, a live block lies between any two consecutive nodes of the free list. -/
def Coalesced (config : HeapConfig) : Prop :=
  ∃ pages, Chain 0 (pageNext config.state.bytes) config.state.context.heapPages pages ∧
    ∀ page ∈ pages, ∃ nodes,
      Chain 0 (nodeNext config.state.bytes) (load64 config.state.bytes page) nodes ∧
        nodes.IsChain (LiveBetween config)

/-- No other live block lies between a node and the block. -/
def Borders (config : HeapConfig) (block : Block) (node : ℕ) : Prop :=
  ∀ other ∈ config.live, other ≠ block →
    ¬ (node < other.pointer ∧ other.pointer + other.size ≤ block.pointer) ∧
      ¬ (block.pointer < other.pointer ∧ other.pointer + other.size ≤ node)

/-- The test of the merge loop for a node and the node that the block becomes, in either order. -/
def MergeTest (bytes : Memory) (block : Block) (node : ℕ) : Prop :=
  node + 24 + load64 bytes node = block.pointer - 24 ∨
    block.pointer + load64 bytes (block.pointer - 8) = node

/-- The block borders on one node of its page at most, and meets the merge test with it. -/
def Joins (config : HeapConfig) (block : Block) : Prop :=
  ∃ nodes, Chain 0 (nodeNext config.state.bytes)
      (load64 config.state.bytes (pointerFrame block.pointer)) nodes ∧
    ∀ node ∈ nodes, Borders config block node → MergeTest config.state.bytes block node ∧
      ∀ other ∈ nodes, Borders config block other → other = node

def JoinsFreed (t : Taken HeapConfig HeapEvent) : Prop :=
  match t.label with
  | .kfree block _ => Joins t.before block
  | _ => True

/-- `kmalloc` of 1 to 4040 bytes, `kfree` of a live block, or a write to one.  A `kmalloc` that is
refused its frame finds nothing in frame 0. -/
def SmallCall (hhdmOffset : ℕ) (t : Taken HeapConfig HeapEvent) : Prop :=
  match t.label with
  | .kmalloc size _ => 1 ≤ size ∧ size ≤ 4040 ∧
      (Granted size t.before.state ∨ NoFit hhdmOffset size t.before.state.bytes)
  | .kfree _ _ => True
  | .write _ _ _ => True
  | .allocateFrame _ => False
  | .freeFrame _ _ => False

section Coalescing

variable {mapping : Mapping} {config : HeapConfig} {heap : Layout} {page : Page} {block : Block}

instance : Trans (LiveBetween config) (LiveBetween config) (LiveBetween config) where
  trans := by
    rintro low middle high ⟨block, hblock, hlt, hle⟩ ⟨other, -, hmiddle, hend⟩
    exact ⟨block, hblock, hlt, by omega⟩

/-- Live blocks between addresses of a page are blocks of the page. -/
theorem Serves.liveBetween_iff (h : Serves mapping 4040 config heap) (hpage : page ∈ heap.pages)
    {low high : ℕ} (hlow : page.base ≤ low) (hhigh : high ≤ page.base + 4096) :
    LiveBetween config low high ↔ page.Between low high := by
  constructor
  · rintro ⟨block, hblock, hlt, hle⟩
    have hsize := (h.sizes block hblock).1
    exact ⟨block, (h.mem_blocks_iff hpage).mp ⟨hblock, by omega, by omega⟩, hlt, hle⟩
  · rintro ⟨block, hblock, hlt, hle⟩
    exact ⟨block, ((h.mem_blocks_iff hpage).mpr hblock).1, hlt, hle⟩

/-- The addresses of nodes lie in their page. -/
theorem Page.node_bounds {node : Node} (hnode : node ∈ page.nodes) :
    page.base ≤ node.address ∧ node.address ≤ page.base + 4096 := by
  have hwithin := page.ordered.within node hnode
  simp only [Node.extent, Extent.stop] at hwithin
  omega

/-- Nodes of a page differ in their addresses. -/
theorem Page.eq_of_address {first second : Node} (hfirst : first ∈ page.nodes)
    (hsecond : second ∈ page.nodes) (heq : first.address = second.address) : first = second := by
  have hnodup : (page.nodes.map Node.address).Nodup := by
    refine List.pairwise_map.mpr (page.ordered.pairwise.imp fun {low high} hle hsame ↦ ?_)
    simp only [Node.extent, Extent.stop] at hle
    omega
  exact List.inj_on_of_nodup_map hnodup hfirst hsecond heq

theorem Serves.coalesced_pages_iff (h : Serves mapping 4040 config heap) :
    Coalesced config ↔ ∀ page ∈ heap.pages, page.Coalesced := by
  have hlist (page : Page) (hpage : page ∈ heap.pages) :
      (page.nodes.map Node.address).IsChain (LiveBetween config) ↔ page.Coalesced := by
    rw [List.isChain_iff_pairwise, List.pairwise_map]
    refine List.Pairwise.iff_of_mem fun {low high} hlow hhigh ↦ ?_
    exact h.liveBetween_iff hpage (Page.node_bounds hlow).1 (Page.node_bounds hhigh).2
  constructor
  · rintro ⟨pages, hpages, hnodes⟩ page hpage
    rw [Chain.unique hpages h.represents.chain] at hnodes
    obtain ⟨nodes, hchain, hbetween⟩ := hnodes page.base (List.mem_map_of_mem hpage)
    rw [Chain.unique hchain (h.represents.pages page hpage).nodes.path] at hbetween
    exact (hlist page hpage).mp hbetween
  · intro hcoalesced
    refine ⟨_, h.represents.chain, fun base hbase ↦ ?_⟩
    obtain ⟨page, hpage, rfl⟩ := List.mem_map.mp hbase
    exact ⟨_, (h.represents.pages page hpage).nodes.path,
      (hlist page hpage).mpr (hcoalesced page hpage)⟩

/-- Bordering is a matter of the blocks of the page. -/
theorem Serves.borders_iff (h : Serves mapping 4040 config heap) (hpage : page ∈ heap.pages)
    (hblock : block ∈ page.blocks) {node : Node} (hnode : node ∈ page.nodes) :
    Borders config block node.address ↔ page.Borders block node.address := by
  obtain ⟨hlive, hlow, hhigh⟩ := (h.mem_blocks_iff hpage).mpr hblock
  have hbounds := Page.node_bounds hnode
  constructor
  · intro hborders other hother
    exact hborders other ((h.mem_blocks_iff hpage).mpr hother).1
  · intro hborders other hother hne
    have hsize := (h.sizes other hother).1
    have hmem (hin : page.base ≤ other.pointer ∧ other.pointer < page.base + 4096) :=
      hborders other ((h.mem_blocks_iff hpage).mp ⟨hother, hin⟩) hne
    exact ⟨fun hrange ↦ (hmem (by omega)).1 hrange, fun hrange ↦ (hmem (by omega)).2 hrange⟩

/-- The merge test reads what the page says. -/
theorem PageAt.mergeTest_iff {bytes : Memory} (h : PageAt bytes page) (hblock : block ∈ page.blocks)
    {node : Node} (hnode : node ∈ page.nodes) :
    MergeTest bytes block node.address ↔
      Mergeable node (freedNode block) ∨ Mergeable (freedNode block) node := by
  have hwithin := page.blocks_within block hblock
  rw [MergeTest, h.nodes.lengths node hnode, h.words block hblock]
  simp only [Mergeable, freedNode, Node.extent, Extent.stop]
  omega

theorem Serves.joins_iff (h : Serves mapping 4040 config heap) (hpage : page ∈ heap.pages)
    (hblock : block ∈ page.blocks) : Joins config block ↔ page.Joins block := by
  obtain ⟨-, hlow, hhigh⟩ := (h.mem_blocks_iff hpage).mpr hblock
  have hat := h.represents.pages page hpage
  rw [Joins, pointerFrame_of_lt (h.represents.page_facts hpage).1 hlow hhigh]
  have hlist (node : Node) (hnode : node ∈ page.nodes) :
      (Borders config block node.address →
        MergeTest config.state.bytes block node.address ∧
          ∀ other ∈ page.nodes.map Node.address, Borders config block other →
            other = node.address) ↔
      (page.Borders block node.address →
        (Mergeable node (freedNode block) ∨ Mergeable (freedNode block) node) ∧
          ∀ other ∈ page.nodes, page.Borders block other.address → other = node) := by
    rw [h.borders_iff hpage hblock hnode, hat.mergeTest_iff hblock hnode, List.forall_mem_map]
    refine imp_congr_right fun _ ↦ and_congr_right fun _ ↦ forall₂_congr fun other hother ↦ ?_
    rw [h.borders_iff hpage hblock hother]
    exact imp_congr_right fun _ ↦
      ⟨fun heq ↦ Page.eq_of_address hother hnode heq, fun heq ↦ congrArg Node.address heq⟩
  constructor
  · rintro ⟨nodes, hnodes, hjoins⟩
    rw [Chain.unique hnodes hat.nodes.path, List.forall_mem_map] at hjoins
    exact fun node hnode ↦ (hlist node hnode).mp (hjoins node hnode)
  · intro hjoins
    refine ⟨_, hat.nodes.path, List.forall_mem_map.mpr fun node hnode ↦ ?_⟩
    exact (hlist node hnode).mpr (hjoins node hnode)

/-- A heap that serves small requests, with tidy pages and a live block between any two nodes. -/
structure Compact (mapping : Mapping) (config : HeapConfig) (heap : Layout) : Prop
    extends Serves mapping 4040 config heap where
  tidy : ∀ page ∈ heap.pages, page.Tidy
  coalesced : ∀ page ∈ heap.pages, page.Coalesced

theorem Booted.compact {hhdmOffset : ℕ} (h : Booted hhdmOffset config) :
    Compact h.mapping config ⟨[], ∅⟩ where
  toServes := h.serves 4040
  tidy := nofun
  coalesced := nofun

variable {event : HeapEvent} {after : HeapConfig}

/-- A small call keeps the heap compact exactly if the block that it frees joins its
neighbours. -/
theorem Compact.step (h : Compact mapping config heap) (hoffset : mapping.hhdmOffset < 2 ^ 64)
    (hstep : HeapStep mapping.hhdmOffset config event after)
    (hsmall : SmallCall mapping.hhdmOffset ⟨config, event, after⟩) :
    ∃ next, Serves mapping 4040 after next ∧ (∀ page ∈ next.pages, page.Tidy) ∧
      ((∀ page ∈ next.pages, page.Coalesced) ↔ JoinsFreed ⟨config, event, after⟩) := by
  cases hstep with
  | @kmalloc size pointer state hrun =>
    obtain ⟨hpos, hle, hgranted⟩ := hsmall
    by_cases hserved : Granted size config.state
    · obtain ⟨hne, next, -, hgiven, hnext⟩ := h.toTracks.kmalloc_given (Or.inl hpos)
        (fun hlarge ↦ absurd hlarge (not_lt.mpr hle)) hserved hrun
      rw [if_neg hne]
      refine ⟨next, ⟨hnext, List.forall_mem_cons.mpr ⟨⟨hpos, hle⟩, h.sizes⟩⟩,
        hgiven.forall_pages Page.kept_tidy h.tidy, iff_of_true ?_ trivial⟩
      exact hgiven.forall_pages Page.kept_coalesced h.coalesced
    · rw [h.represents.kmalloc_refused h.lock_eq hoffset hle hserved
        (hgranted.resolve_left hserved)] at hrun
      obtain ⟨rfl, rfl⟩ := Prod.mk.inj (Option.some.inj hrun)
      rw [if_pos rfl]
      exact ⟨heap, h.toServes, h.tidy, iff_of_true h.coalesced trivial⟩
  | @kfree block ok state hlive hrun =>
    have hsize := h.sizes block hlive
    have haligned := h.represents.pointer_not_aligned ((h.live_iff block).mp hlive) hsize.1
    obtain ⟨-, next, -, hreclaimed, hnext⟩ := h.toTracks.kfree_reclaimed hlive haligned
      (fun hlarge ↦ absurd hlarge (not_lt.mpr hsize.2)) hrun
    have hserves : Serves mapping 4040 ⟨state, config.live.erase block, config.owned⟩ next :=
      ⟨hnext, fun other hother ↦ h.sizes other (List.mem_of_mem_erase hother)⟩
    cases hreclaimed with
    | @small front back page hpages hblock hcontext hpage htouches =>
      have htidy := h.tidy
      have hcoalesced := h.coalesced
      have hmem : page ∈ heap.pages := mem_of_eq_middle hpages
      rw [hpages, List.forall_mem_append, List.forall_mem_cons] at htidy hcoalesced
      refine ⟨_, hserves, ?_, ?_⟩
      · exact List.forall_mem_append.mpr
          ⟨htidy.1, List.forall_mem_cons.mpr ⟨htidy.2.1.release hblock, htidy.2.2⟩⟩
      · change _ ↔ Joins config block
        rw [h.joins_iff hmem hblock, ← htidy.2.1.coalesced_release_iff hblock hcoalesced.2.1,
          List.forall_mem_append, List.forall_mem_cons]
        exact ⟨fun hall ↦ hall.2.1, fun hpage ↦ ⟨hcoalesced.1, hpage, hcoalesced.2.2⟩⟩
    | large hlarge => exact absurd (h.represents.large block hlarge).size_gt (not_lt.mpr hsize.2)
  | write hlive hroom =>
    exact ⟨heap, ⟨h.toTracks.write hlive hroom, h.sizes⟩, h.tidy, iff_of_true h.coalesced trivial⟩
  | allocateFrame hrun => exact hsmall.elim
  | freeFrame howned hrun => exact hsmall.elim

/-- In the runs of small calls, a live block lies between any two consecutive nodes after every
call exactly if every freed block joins its neighbours. -/
theorem coalesced_iff {hhdmOffset : ℕ} {start final : HeapConfig}
    {taken : List (Taken HeapConfig HeapEvent)} (hboot : Booted hhdmOffset start)
    (hoffset : hhdmOffset < 2 ^ 64) (hrun : Run (HeapStep hhdmOffset) start taken final)
    (hsmall : ∀ t ∈ taken, SmallCall hhdmOffset t) :
    (∀ t ∈ taken, Coalesced t.after) ↔ ∀ t ∈ taken, JoinsFreed t := by
  apply Iff.symm
  refine @Run.forall_iff_of _ _ _ _ _ _ (fun config ↦ ∃ heap, Compact hboot.mapping config heap)
    (SmallCall hhdmOffset) JoinsFreed (fun t ↦ Coalesced t.after)
    ⟨_, hboot.compact⟩ ?_ ?_ hrun hsmall
  · rintro before event after ⟨heap, hheap⟩ hstep hcall hjoins
    obtain ⟨next, hserves, htidy, hcoalesced⟩ := hheap.step hoffset hstep hcall
    exact ⟨next, hserves, htidy, hcoalesced.mpr hjoins⟩
  · rintro before event after ⟨heap, hheap⟩ hstep hcall
    obtain ⟨next, hserves, -, hcoalesced⟩ := hheap.step hoffset hstep hcall
    rw [← hcoalesced, hserves.coalesced_pages_iff]

theorem TwoCalls.smallCall_taken (calls : TwoCalls) : ∀ t ∈ calls.taken, SmallCall 0 t :=
  calls.forall_mem_taken.mpr ⟨⟨by norm_num, by norm_num, Or.inl calls.served.2.2⟩, by norm_num,
    by norm_num, Or.inl calls.served_again.2.2⟩

/-- The second of two blocks is freed, and then the first. -/
theorem coalesced_twoBlocks : ∃ taken final, Run (HeapStep 0) bootedHeap taken final ∧
    taken.length = 4 ∧ final.live = [] ∧ ∀ t ∈ taken, Coalesced t.after := by
  obtain ⟨calls⟩ := exists_twoCalls
  obtain ⟨state, hlive, -, hfree, -, htracks⟩ :=
    calls.tracks.exists_release calls.second_mem (show 0 < 64 by norm_num)
  have hfirst : (twoBlocks calls.base).1 ∈
      (calls.page.release (twoBlocks calls.base).2 calls.second_mem).blocks :=
    Finset.mem_erase.mpr ⟨twoBlocks_ne calls.base, calls.first_mem⟩
  have hnodes : (calls.page.release (twoBlocks calls.base).2 calls.second_mem).nodes =
      [⟨calls.base + 120, 3952⟩] := by
    simp [Page.release, Page.releasedNodes, calls.nodes, twoBlocks, carvedBlock, remaining,
      freedNode, nodesBefore, nodesAfter, coalesce, mergeFrom, Mergeable, Node.merge, Node.extent,
      Extent.stop]
  obtain ⟨state', hlive', -, hfree', -, -⟩ :=
    htracks.exists_release hfirst (show 0 < 64 by norm_num)
  have hrun := (calls.run_taken.snoc _ hfree).snoc _ hfree'
  have hserves : Serves booted_bootedHeap.mapping 4040 _ _ :=
    ⟨htracks, fun block hblock ↦ calls.serves.sizes block (List.mem_of_mem_erase hblock)⟩
  refine ⟨_, _, hrun, rfl, ?_, (coalesced_iff booted_bootedHeap (by norm_num) hrun ?_).mpr ?_⟩
  · apply List.eq_nil_of_length_eq_zero
    rw [List.length_erase_of_mem hlive', List.length_erase_of_mem hlive, calls.live_length]
  · simp only [List.forall_mem_append, List.forall_mem_singleton]
    exact ⟨⟨calls.smallCall_taken, trivial⟩, trivial⟩
  · simp only [List.forall_mem_append, List.forall_mem_singleton, TwoCalls.forall_mem_taken]
    refine ⟨⟨⟨trivial, trivial⟩,
      (calls.serves.joins_iff (List.mem_singleton_self _) calls.second_mem).mpr ?_⟩,
      (hserves.joins_iff (List.mem_singleton_self _) hfirst).mpr ?_⟩
    · simp [Page.Joins, calls.nodes, twoBlocks, carvedBlock, remaining, Mergeable, freedNode,
        Node.extent, Extent.stop]
    · rw [Page.Joins, hnodes]
      simp [twoBlocks, carvedBlock, remaining, Mergeable, freedNode, Node.extent, Extent.stop]

/-- When both are freed in this order, two nodes are left and no block. -/
theorem Page.two_nodes_left {base : ℕ} {next : Page} (hnodes : page.nodes = [⟨base + 208, 3872⟩])
    (hblocks : page.blocks = {(twoBlocks base).2, (twoBlocks base).1})
    (hfirst : (twoBlocks base).1 ∈ page.blocks)
    (hnext : next = page.release (twoBlocks base).1 hfirst)
    (hsecond : (twoBlocks base).2 ∈ next.blocks) :
    ¬ (next.release (twoBlocks base).2 hsecond).Coalesced := by
  have hone : next.nodes = [⟨base + 32, 64⟩, ⟨base + 208, 3872⟩] := by
    rw [hnext]
    simp [Page.release, Page.releasedNodes, hnodes, twoBlocks, carvedBlock, remaining, freedNode,
      nodesBefore, nodesAfter, coalesce, mergeFrom, Mergeable, Node.extent, Extent.stop]
  have htwo : (next.release (twoBlocks base).2 hsecond).nodes =
      [⟨base + 32, 144⟩, ⟨base + 208, 3872⟩] := by
    simp [Page.release, Page.releasedNodes, hone, twoBlocks, carvedBlock, remaining, freedNode,
      nodesBefore, nodesAfter, coalesce, mergeFrom, Mergeable, Node.merge, Node.extent, Extent.stop]
  intro hcoalesced
  rw [Page.Coalesced, htwo, List.pairwise_pair] at hcoalesced
  obtain ⟨block, hblock, -⟩ := hcoalesced
  obtain ⟨hne, hblock⟩ := Finset.mem_erase.mp hblock
  rw [hnext] at hblock
  obtain ⟨hne', hblock⟩ := Finset.mem_erase.mp hblock
  rw [hblocks, Finset.mem_insert, Finset.mem_singleton] at hblock
  exact hblock.elim hne hne'

/-- Freeing the first of two blocks and then the second leaves two nodes and no block. -/
theorem neighbours_not_coalesced : ∃ taken final, Run (HeapStep 0) bootedHeap taken final ∧
    (∀ t ∈ taken, SmallCall 0 t) ∧ ¬ Coalesced final := by
  obtain ⟨calls⟩ := exists_twoCalls
  obtain ⟨state, -, -, hfree, -, htracks⟩ :=
    calls.tracks.exists_release calls.first_mem (show 0 < 64 by norm_num)
  have hsecond : (twoBlocks calls.base).2 ∈
      (calls.page.release (twoBlocks calls.base).1 calls.first_mem).blocks :=
    Finset.mem_erase.mpr ⟨(twoBlocks_ne calls.base).symm, calls.second_mem⟩
  obtain ⟨state', -, -, hfree', -, hfinal⟩ :=
    htracks.exists_release hsecond (show 0 < 64 by norm_num)
  refine ⟨_, _, (calls.run_taken.snoc _ hfree).snoc _ hfree', ?_, ?_⟩
  · simp only [List.forall_mem_append, List.forall_mem_singleton]
    exact ⟨⟨calls.smallCall_taken, trivial⟩, trivial⟩
  · have hserves : Serves booted_bootedHeap.mapping 4040 _ _ :=
      ⟨hfinal, fun block hblock ↦ calls.serves.sizes block
        (List.mem_of_mem_erase (List.mem_of_mem_erase hblock))⟩
    rw [hserves.coalesced_pages_iff]
    exact fun hcoalesced ↦ Page.two_nodes_left calls.nodes calls.blocks calls.first_mem rfl hsecond
      (hcoalesced _ (List.mem_singleton_self _))

end Coalescing

end SideHOS.Heap
