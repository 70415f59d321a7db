import SideHOS.Heap.Isolation
import SideHOS.Heap.Recovery

/-!
# Alignment of pointers and nodes

Nothing in the heap rounds a request.  Pages and large blocks start at multiples of 8, and so do
freed and merged nodes; a node that is left behind a block starts where the request ends.  As long
as no request that is not a multiple of 8 leaves a node behind, every pointer, size word and node
is at a multiple of 8, and the first such request puts a node elsewhere.
-/

namespace SideHOS.Heap

open Kernel Linked Machine Machine.Word64 Machine.ByteMemory Sharing Sharing.Program Transition

/-- Every pointer a caller holds, its size word, and every free node is at a multiple of 8. -/
structure AlignedHeap (config : HeapConfig) : Prop where
  pointers : ∀ block ∈ config.live, block.pointer % 8 = 0 ∧ (block.pointer - 8) % 8 = 0
  nodes : ∃ pages, Chain 0 (pageNext config.state.bytes) config.state.context.heapPages pages ∧
    ∀ page ∈ pages, ∃ nodes,
      Chain 0 (nodeNext config.state.bytes) (load64 config.state.bytes page) nodes ∧
        ∀ node ∈ nodes, node % 8 = 0

/-- Only the heap is called, for sizes from 1 on; frames and entries of the table are available. -/
def Supplied (t : Taken HeapConfig HeapEvent) : Prop :=
  match t.label with
  | .kmalloc size _ => 1 ≤ size ∧ (4040 < size → 0 < frameCounts size) ∧
      Granted size t.before.state
  | .kfree block _ => 4040 < block.size → t.before.freelist.cursor < 255
  | .write _ _ _ => True
  | .allocateFrame _ => False
  | .freeFrame _ _ => False

/-- A small request leaves at least a node header of the node that it finds. -/
def LeavesNode (hhdmOffset size : ℕ) (state : AllocatorState) : Prop :=
  ∃ page middle prev node,
    run exec (choosePage hhdmOffset (size + 8)) { state with memoryLock := 1 } =
      some (page, middle) ∧
    run exec (nodeSearch (size + 8) walkFuel 0 (load64 middle.bytes page)) middle =
      some ((prev, node), middle) ∧
    size + 24 ≤ load64 middle.bytes node

/-- A small request that leaves a node is for a multiple of 8 bytes. -/
def KeepsAligned (hhdmOffset : ℕ) (t : Taken HeapConfig HeapEvent) : Prop :=
  match t.label with
  | .kmalloc size _ => size ≤ 4040 → LeavesNode hhdmOffset size t.before.state → size % 8 = 0
  | _ => True

section Alignment

variable {mapping : Mapping} {config final : HeapConfig} {heap next : Layout} {page : Page}
  {block : Block} {event : HeapEvent} {state after : AllocatorState} {size pointer : ℕ}

namespace Page

structure Aligned (page : Page) : Prop where
  nodes : ∀ node ∈ page.nodes, node.address % 8 = 0
  blocks : ∀ block ∈ page.blocks, block.pointer % 8 = 0

theorem Aligned.fresh {base : ℕ} (hbase : base % 4096 = 0) : (Page.fresh base).Aligned where
  nodes node hnode := by
    rw [List.mem_singleton.mp hnode]
    dsimp only
    omega
  blocks := by simp [Page.fresh]

/-- Carving keeps a page aligned unless it leaves a node at an odd place. -/
theorem Aligned.carve_iff (h : page.Aligned) {front back : List Node} {node : Node}
    (hfit : page.Fit front node back size) :
    (page.carve front node back size hfit).Aligned ↔ (size + 24 ≤ node.length → size % 8 = 0) := by
  have hlength := hfit.le_length
  have hnode := h.nodes node hfit.mem
  have hsplit : remaining node size < 16 ↔ ¬ size + 24 ≤ node.length := by
    unfold remaining
    omega
  have hothers (other : Node) (hother : other ∈ front ∨ other ∈ back) : other.address % 8 = 0 := by
    refine h.nodes other ?_
    rw [hfit.nodes_eq, List.mem_append, List.mem_cons]
    exact hother.imp_right Or.inr
  have hblocks : ∀ block ∈ insert (carvedBlock node size) page.blocks, block.pointer % 8 = 0 := by
    rw [Finset.forall_mem_insert]
    refine ⟨?_, h.blocks⟩
    change (node.address + 24) % 8 = 0
    omega
  have hrest : (∀ other ∈ carvedRest node size, other.address % 8 = 0) ↔
      (size + 24 ≤ node.length → size % 8 = 0) := by
    unfold carvedRest
    split_ifs with hremaining
    · exact iff_of_true nofun fun hleaves ↦ absurd hleaves (hsplit.mp hremaining)
    · rw [List.forall_mem_singleton]
      have hleaves := not_not.mp (mt hsplit.mpr hremaining)
      dsimp only
      omega
  rw [← hrest]
  constructor
  · exact fun haligned other hother ↦ haligned.nodes other
      (List.mem_append_left _ (List.mem_append_right _ hother))
  · refine fun hrest ↦ ⟨?_, hblocks⟩
    change ∀ other ∈ front ++ carvedRest node size ++ back, other.address % 8 = 0
    simp only [List.mem_append]
    rintro other ((hother | hother) | hother)
    · exact hothers other (Or.inl hother)
    · exact hrest other hother
    · exact hothers other (Or.inr hother)

theorem Aligned.release (h : page.Aligned) (hblock : block ∈ page.blocks) :
    (page.release block hblock).Aligned where
  nodes := by
    refine address_merges (fun address ↦ address % 8 = 0) ?_ (page.releasedNodes_merges block)
    have hnodes := h.nodes
    rw [← before_append_after block page.nodes, List.forall_mem_append] at hnodes
    rw [List.forall_mem_append, List.forall_mem_cons]
    refine ⟨hnodes.1, ?_, hnodes.2⟩
    have hpointer := h.blocks block hblock
    have hwithin := (page.blocks_within block hblock).1
    change (block.pointer - 24) % 8 = 0
    omega
  blocks other hother := h.blocks other (Finset.mem_of_mem_erase hother)

end Page

/-- Whether a node is left depends on the node that is found. -/
theorem Choice.leavesNode_iff (choice : Choice mapping { state with memoryLock := 1 } heap size) :
    LeavesNode mapping.hhdmOffset size state ↔ size + 24 ≤ choice.node.length := by
  have hsearch := choice.pageAt.run_search choice.page_facts.2.2 choice.fit choice.first
  have hlength := choice.pageAt.nodes.lengths choice.node choice.fit.mem
  constructor
  · rintro ⟨page, middle, prev, node, hchoose, hfound, hleaves⟩
    obtain ⟨rfl, rfl⟩ := Prod.mk.inj (Option.some.inj (choice.chooses.symm.trans hchoose))
    obtain ⟨hpair, -⟩ := Prod.mk.inj (Option.some.inj (hsearch.symm.trans hfound))
    obtain ⟨-, rfl⟩ := Prod.mk.inj hpair
    exact hleaves.trans_eq hlength
  · intro hleaves
    exact ⟨_, _, _, _, choice.chooses, hsearch, hleaves.trans_eq hlength.symm⟩

/-- The page that a block is carved from and the others are aligned if the heap is. -/
theorem Choice.aligned (choice : Choice mapping state heap size)
    (haligned : ∀ page ∈ heap.pages, page.Aligned) :
    ∀ page ∈ choice.front ++ choice.page :: choice.back, page.Aligned := by
  have hprepared := choice.prepared
  have hrepresents := choice.represents
  generalize choice.front ++ choice.page :: choice.back = pages at hprepared hrepresents ⊢
  generalize choice.middle = middle at hprepared hrepresents
  cases hprepared with
  | found => exact haligned
  | fresh =>
    have hbase := (hrepresents.page_facts List.mem_cons_self).1
    exact List.forall_mem_cons.mpr ⟨Page.Aligned.fresh hbase, haligned⟩

theorem Choice.layout_aligned_iff (choice : Choice mapping { state with memoryLock := 1 } heap size)
    (haligned : ∀ page ∈ heap.pages, page.Aligned) :
    (∀ page ∈ choice.layout.pages, page.Aligned) ↔
      (LeavesNode mapping.hhdmOffset size state → size % 8 = 0) := by
  have hpages := choice.aligned haligned
  rw [List.forall_mem_append, List.forall_mem_cons] at hpages
  obtain ⟨hfront, hpage, hback⟩ := hpages
  rw [choice.leavesNode_iff, ← hpage.carve_iff choice.fit]
  change (∀ page ∈ choice.front ++ _ :: choice.back, page.Aligned) ↔ _
  rw [List.forall_mem_append, List.forall_mem_cons]
  exact ⟨fun h ↦ h.2.1, fun h ↦ ⟨hfront, h, hback⟩⟩

/-- Large blocks are aligned, so the pages decide. -/
theorem Tracks.alignedHeap_iff (h : Tracks mapping config heap) :
    AlignedHeap config ↔ ∀ page ∈ heap.pages, page.Aligned := by
  constructor
  · rintro ⟨hpointers, pages, hpages, hnodes⟩ page hpage
    rw [Chain.unique hpages h.represents.chain] at hnodes
    obtain ⟨nodes, hlist, haligned⟩ := hnodes page.base (List.mem_map_of_mem hpage)
    rw [Chain.unique hlist (h.represents.pages page hpage).nodes.path, List.forall_mem_map]
      at haligned
    refine ⟨haligned, fun block hblock ↦ (hpointers block ?_).1⟩
    exact (h.live_iff block).mpr (Or.inr ⟨page, hpage, hblock⟩)
  · refine fun haligned ↦ ⟨fun block hlive ↦ ?_, _, h.represents.chain, ?_⟩
    · have hpointer : block.pointer % 8 = 0 := by
        rcases (h.live_iff block).mp hlive with hlarge | ⟨page, hpage, hblock⟩
        · have hframe := (h.represents.large_facts hlarge).1
          have hpointer := (h.represents.large block hlarge).pointer_ge
          omega
        · exact (haligned page hpage).blocks block hblock
      have hge := h.pointer_ge hlive
      exact ⟨hpointer, by omega⟩
    · rw [List.forall_mem_map]
      intro page hpage
      refine ⟨_, (h.represents.pages page hpage).nodes.path, ?_⟩
      rw [List.forall_mem_map]
      exact (haligned page hpage).nodes

structure AlignedTracks (mapping : Mapping) (config : HeapConfig) (heap : Layout) : Prop
    extends Tracks mapping config heap where
  positive : ∀ block ∈ config.live, 0 < block.size
  aligned : ∀ page ∈ heap.pages, page.Aligned

theorem Booted.alignedTracks {hhdmOffset : ℕ} (h : Booted hhdmOffset config) :
    AlignedTracks h.mapping config ⟨[], ∅⟩ where
  toTracks := h.tracks
  positive := by simp [h.live_eq]
  aligned := nofun

/-- A small request keeps the heap aligned exactly if it leaves no node or is for a multiple of
8 bytes. -/
theorem AlignedTracks.kmalloc_small (h : AlignedTracks mapping config heap) (hpos : 1 ≤ size)
    (hsize : size ≤ 4040) (hgranted : Granted size config.state)
    {memory : AllocatorState}
    (hrun : run exec (Kernel.kmalloc mapping.hhdmOffset size) config.state =
      some (pointer, memory)) :
    ∃ next, Tracks mapping ⟨memory, givenBlock size pointer memory :: config.live, config.owned⟩
        next ∧
      ((∀ page ∈ next.pages, page.Aligned) ↔
        (LeavesNode mapping.hhdmOffset size config.state → size % 8 = 0)) := by
  obtain ⟨choice⟩ := (h.represents.withLock 1).exists_choice hsize hgranted
  have hbounds := choice.node_bounds
  have hword := choice.page_facts.2.2
  rw [run_kmalloc_of_le h.lock_eq hsize, choice.run_kmallocSmall hsize (by omega)] at hrun
  obtain ⟨rfl, rfl⟩ := Prod.mk.inj (Option.some.inj hrun)
  exact ⟨choice.layout, (h.toTracks.give (choice.given hsize)).2.2,
    choice.layout_aligned_iff h.aligned⟩

/-- A large block leaves the pages as they are. -/
theorem Given.pages_of_large (h : Given mapping state heap size pointer after next)
    (hsize : 4040 < size) : next.pages = heap.pages := by
  cases h with
  | small hsmall => exact absurd hsize (not_lt.mpr hsmall)
  | large => rfl

/-- Freed blocks become aligned nodes. -/
theorem Reclaimed.aligned (h : Reclaimed mapping state heap block after next)
    (haligned : ∀ page ∈ heap.pages, page.Aligned) : ∀ page ∈ next.pages, page.Aligned := by
  cases h with
  | small hpages hblock =>
    rw [hpages, List.forall_mem_append, List.forall_mem_cons] at haligned
    obtain ⟨hfront, hpage, hback⟩ := haligned
    exact List.forall_mem_append.mpr
      ⟨hfront, List.forall_mem_cons.mpr ⟨hpage.release hblock, hback⟩⟩
  | large => exact haligned

/-- A call of an aligned heap keeps it aligned exactly if it leaves no node at an odd place. -/
theorem AlignedTracks.step (h : AlignedTracks mapping config heap)
    (hstep : HeapStep mapping.hhdmOffset config event final)
    (hsupplied : Supplied ⟨config, event, final⟩) :
    ∃ next, Tracks mapping final next ∧ (∀ block ∈ final.live, 0 < block.size) ∧
      ((∀ page ∈ next.pages, page.Aligned) ↔
        KeepsAligned mapping.hhdmOffset ⟨config, event, final⟩) := by
  cases hstep with
  | @kmalloc size pointer memory hrun =>
    obtain ⟨hpos, hcount, hgranted⟩ := hsupplied
    obtain ⟨hne, next, -, hgiven, hnext⟩ :=
      h.toTracks.kmalloc_given (Or.inl hpos) hcount hgranted hrun
    have hpositive : ∀ block ∈ givenBlock size pointer memory :: config.live, 0 < block.size :=
      List.forall_mem_cons.mpr ⟨hpos, h.positive⟩
    rw [if_neg hne]
    rcases le_or_gt size 4040 with hsize | hsize
    · obtain ⟨layout, hlayout, hiff⟩ := h.kmalloc_small hpos hsize hgranted hrun
      exact ⟨layout, hlayout, hpositive,
        hiff.trans ⟨fun hkeeps _ ↦ hkeeps, fun hkeeps ↦ hkeeps hsize⟩⟩
    · refine ⟨next, hnext, hpositive, iff_of_true ?_ fun hsmall ↦ absurd hsize (not_lt.mpr hsmall)⟩
      rw [hgiven.pages_of_large hsize]
      exact h.aligned
  | @kfree block ok memory hlive hrun =>
    have haligned := h.represents.pointer_not_aligned ((h.live_iff block).mp hlive)
      (h.positive block hlive)
    obtain ⟨-, next, -, hreclaimed, hnext⟩ :=
      h.toTracks.kfree_reclaimed hlive haligned hsupplied hrun
    exact ⟨next, hnext, fun other hother ↦ h.positive other (List.mem_of_mem_erase hother),
      iff_of_true (hreclaimed.aligned h.aligned) trivial⟩
  | write hlive hroom =>
    exact ⟨heap, h.toTracks.write hlive hroom, h.positive, iff_of_true h.aligned trivial⟩
  | allocateFrame hrun => exact hsupplied.elim
  | freeFrame howned hrun => exact hsupplied.elim

/-- Every state of a run is aligned exactly if every small request of the run that leaves a node
is for a multiple of 8 bytes. -/
theorem pointers_aligned_iff {hhdmOffset : ℕ} {start final : HeapConfig}
    {taken : List (Taken HeapConfig HeapEvent)} (hboot : Booted hhdmOffset start)
    (hrun : Run (HeapStep hhdmOffset) start taken final)
    (hsupplied : ∀ t ∈ taken, Supplied t) :
    (∀ t ∈ taken, KeepsAligned hhdmOffset t) ↔ ∀ t ∈ taken, AlignedHeap t.after := by
  refine @Run.forall_iff_of _ _ _ _ _ _
      (fun config ↦ ∃ heap, AlignedTracks hboot.mapping config heap)
    Supplied (KeepsAligned hhdmOffset) (fun t ↦ AlignedHeap t.after)
    ⟨_, hboot.alignedTracks⟩ ?_ ?_ hrun hsupplied
  · rintro before event after ⟨heap, hheap⟩ hstep hassumed hkeeps
    obtain ⟨next, hnext, hpositive, hiff⟩ := hheap.step hstep hassumed
    exact ⟨next, hnext, hpositive, hiff.mpr hkeeps⟩
  · rintro before event after ⟨heap, hheap⟩ hstep hassumed
    obtain ⟨next, hnext, -, hiff⟩ := hheap.step hstep hassumed
    exact (hnext.alignedHeap_iff.trans hiff).symm

theorem pointers_aligned_firstBlock : ∃ pointer after, pointer ≠ 0 ∧
    AlignedHeap ⟨after, [givenBlock 64 pointer after], 0⟩ := by
  obtain ⟨pointer, after, hne, -, hstep⟩ := exists_firstBlock
  refine ⟨pointer, after, hne, (pointers_aligned_iff booted_bootedHeap (Run.snoc _ Run.nil hstep)
    fun t ht ↦ ?_).mp (fun t ht ↦ ?_) _ (List.mem_singleton_self _)⟩
  · rw [List.mem_singleton.mp ht]
    exact ⟨by norm_num, fun _ ↦ by decide, granted_bootedHeap⟩
  · rw [List.mem_singleton.mp ht]
    exact fun _ _ ↦ by norm_num

/-- After a request of one byte, the free node of its page is at an odd address. -/
theorem node_not_aligned : ∃ taken final, Run (HeapStep 0) bootedHeap taken final ∧
    (∀ t ∈ taken, Supplied t) ∧ ¬ AlignedHeap final := by
  obtain ⟨pointer, after, base, hfit, hstep, htracks⟩ :=
    exists_firstPage_of_le (show 0 < 1 by norm_num) (by norm_num)
  refine ⟨_, _, Run.snoc _ Run.nil hstep, fun t ht ↦ ?_, fun haligned ↦ ?_⟩
  · rw [List.mem_singleton.mp ht]
    exact ⟨le_rfl, fun _ ↦ by decide, granted_bootedHeap_of_le (by norm_num)⟩
  · have hpage := htracks.alignedHeap_iff.mp haligned _ (List.mem_singleton_self _)
    have hbase := (htracks.represents.page_facts (List.mem_singleton_self _)).1
    obtain ⟨hnodes, -⟩ := Page.carve_fresh hfit (by norm_num)
    have hodd := hpage.nodes
    rw [hnodes, List.forall_mem_singleton] at hodd
    change base % 4096 = 0 at hbase
    dsimp only at hodd
    omega

end Alignment

end SideHOS.Heap
