import SideHOS.Heap.Ownership
import SideHOS.Heap.Tidy

/-!
# The cached maximum of a page

`largest` should be the maximum length on the free list of its page, so that `kmalloc` takes a new
frame only when no node of any page is long enough.  A new page and `kmalloc` set it to the
maximum; `kfree` leaves it alone, and makes it stale exactly if the node which the freed block
becomes part of is longer.
-/

namespace SideHOS.Heap

open Kernel Linked Machine Machine.Word64 Machine.ByteMemory Sharing Sharing.Program Transition

/-! ## Pages -/

section Maximum

variable {maximum : ℕ} {node : Node} {nodes front back : List Node}

theorem maxLength_eq (maximum : ℕ) (nodes : List Node) :
    maxLength maximum nodes = max maximum (maxLength 0 nodes) := by
  induction nodes generalizing maximum with
  | nil => exact (Nat.max_zero _).symm
  | cons node nodes ih =>
    rw [maxLength, ih, maxLength, ih (if node.length > 0 then node.length else 0)]
    split_ifs <;> omega

theorem maxLength_cons (node : Node) (nodes : List Node) :
    maxLength 0 (node :: nodes) = max node.length (maxLength 0 nodes) := by
  rw [maxLength, maxLength_eq]
  split_ifs <;> omega

theorem maxLength_singleton (node : Node) : maxLength 0 [node] = node.length := by
  rw [maxLength_cons]
  exact Nat.max_zero _

theorem maxLength_append (front back : List Node) :
    maxLength 0 (front ++ back) = max (maxLength 0 front) (maxLength 0 back) := by
  induction front with
  | nil => exact (Nat.zero_max _).symm
  | cons node front ih => rw [List.cons_append, maxLength_cons, maxLength_cons, ih, max_assoc]

/-- The scan of `kmalloc` computes the maximum. -/
theorem maxLength_eq_foldr (nodes : List Node) :
    maxLength 0 nodes = (nodes.map Node.length).foldr max 0 := by
  induction nodes with
  | nil => rfl
  | cons node nodes ih => rw [maxLength_cons, ih, List.map_cons, List.foldr_cons]

theorem length_le_maxLength (hnode : node ∈ nodes) : node.length ≤ maxLength 0 nodes := by
  obtain ⟨front, back, rfl⟩ := List.append_of_mem hnode
  rw [maxLength_append, maxLength_cons]
  omega

end Maximum

namespace Page

/-- `largest` is the maximum length of the nodes. -/
def Exact (page : Page) : Prop := page.largest = maxLength 0 page.nodes

/-- The node that a freed block becomes part of is not longer than `largest`. -/
structure FitsLargest (page : Page) (block : Block) : Prop where
  below : ∀ low ∈ page.nodes, Mergeable low (freedNode block) →
    low.length + 16 + block.word ≤ page.largest
  above : (∀ low ∈ page.nodes, ¬ Mergeable low (freedNode block)) →
    ∀ high ∈ page.nodes, Mergeable (freedNode block) high →
      block.word + 16 + high.length ≤ page.largest
  alone : block.word ≤ page.largest

variable {page : Page} {block : Block}

theorem Exact.fresh (base : ℕ) : (Page.fresh base).Exact := rfl

theorem Exact.carve {front back : List Node} {node : Node} {size : ℕ}
    (hfit : page.Fit front node back size) : (page.carve front node back size hfit).Exact := rfl

theorem kept_exact : Kept Page.Exact := ⟨Exact.fresh, fun hfit _ ↦ Exact.carve hfit⟩

/-- `kfree` leaves `largest` exact exactly if the node that the block becomes part of is not
longer. -/
theorem Tidy.exact_release_iff (h : page.Tidy) (hexact : page.Exact)
    (hblock : block ∈ page.blocks) :
    (page.release block hblock).Exact ↔ page.FitsLargest block := by
  obtain ⟨hlow, hhigh⟩ := h.gaps hblock
  have hjoined := h.joined hblock
  have hspread := h.spread
  have hnodes : page.nodes = nodesBefore block page.nodes ++ nodesAfter block page.nodes :=
    (before_append_after block page.nodes).symm
  change page.largest = maxLength 0 (page.releasedNodes block) ↔ _
  unfold Exact at hexact
  generalize nodesBefore block page.nodes = before at *
  generalize nodesAfter block page.nodes = after at *
  generalize page.releasedNodes block = released at *
  have hbelow (low : Node) (hmem : low ∈ page.nodes) (hmerge : Mergeable low (freedNode block)) :
      low ∈ before := by
    rw [hnodes] at hmem
    refine (List.mem_append.mp hmem).resolve_right fun hafter ↦ ?_
    have hgap := hhigh low hafter
    simp only [Mergeable, Node.extent, Extent.stop] at hmerge hgap
    omega
  have habove (high : Node) (hmem : high ∈ page.nodes)
      (hmerge : Mergeable (freedNode block) high) : high ∈ after := by
    rw [hnodes] at hmem
    refine (List.mem_append.mp hmem).resolve_left fun hbefore ↦ ?_
    have hgap := hlow high hbefore
    simp only [Mergeable, Node.extent, Extent.stop] at hmerge hgap
    omega
  rw [hnodes, maxLength_append] at hexact
  rw [hnodes] at hspread
  have hword : (freedNode block).length = block.word := rfl
  cases hjoined with
  | @below front low hfront hmerge =>
    subst hfront
    have honly (other : Node) (hmem : other ∈ page.nodes)
        (hother : Mergeable other (freedNode block)) : other = low := by
      rcases List.mem_append.mp (hbelow other hmem hother) with hmem | hmem
      · have hgap := (List.pairwise_append.mp (List.pairwise_append.mp hspread).1).2.2 other hmem
          low (List.mem_singleton_self _)
        simp only [Mergeable, Node.extent, Extent.stop] at hmerge hother hgap
        omega
      · exact List.mem_singleton.mp hmem
    have hlength : (low.merge (freedNode block)).length = low.length + 16 + block.word := rfl
    have hmem : low ∈ page.nodes := by simp [hnodes]
    rw [maxLength_append, maxLength_singleton] at hexact
    rw [maxLength_append, maxLength_cons, hlength]
    constructor
    · intro heq
      refine ⟨fun other hother hmerges ↦ ?_, fun hnone ↦ absurd hmerge (hnone low hmem), by omega⟩
      rw [honly other hother hmerges]
      omega
    · intro hfits
      have hle := hfits.below low hmem hmerge
      omega
  | @above high back hback hnot hmerge =>
    subst hback
    have honly (other : Node) (hmem : other ∈ page.nodes)
        (hother : Mergeable (freedNode block) other) : other = high := by
      refine (List.mem_cons.mp (habove other hmem hother)).resolve_right fun hlater ↦ ?_
      have hgap := (List.pairwise_cons.mp (List.pairwise_append.mp hspread).2.1).1 other hlater
      simp only [Mergeable, Node.extent, Extent.stop] at hmerge hother hgap
      omega
    have hlength : ((freedNode block).merge high).length = block.word + 16 + high.length := rfl
    have hmem : high ∈ page.nodes := by simp [hnodes]
    have hnone (low : Node) (hlow : low ∈ page.nodes) : ¬ Mergeable low (freedNode block) :=
      fun hmerges ↦ hnot low (hbelow low hlow hmerges) hmerges
    rw [maxLength_cons] at hexact
    rw [maxLength_append, maxLength_cons, hlength]
    constructor
    · intro heq
      refine ⟨fun low hlow hmerges ↦ absurd hmerges (hnone low hlow),
        fun _ other hother hmerges ↦ ?_, by omega⟩
      rw [honly other hother hmerges]
      omega
    · intro hfits
      have hle := hfits.above hnone high hmem hmerge
      omega
  | alone hnot hnone =>
    rw [maxLength_append, maxLength_cons, hword]
    constructor
    · intro heq
      exact ⟨fun low hlow hmerge ↦ absurd hmerge (hnot low (hbelow low hlow hmerge)),
        fun _ high hhigh hmerge ↦ absurd hmerge (hnone high (habove high hhigh hmerge)), by omega⟩
    · intro hfits
      have hle := hfits.alone
      omega

end Page

/-! ## Runs -/

/-- On every heap page, `largest` is the maximum length over the free list, or 0 if the list is
empty. -/
def LargestExact (config : HeapConfig) : Prop :=
  ∃ pages, Chain 0 (pageNext config.state.bytes) config.state.context.heapPages pages ∧
    ∀ page ∈ pages, ∃ nodes,
      Chain 0 (nodeNext config.state.bytes) (load64 config.state.bytes page) nodes ∧
        load64 config.state.bytes (page + 16) =
          (nodes.map (load64 config.state.bytes)).foldr max 0

/-- No node of a heap page has room for a block of this size. -/
def NoRoom (config : HeapConfig) (size : ℕ) : Prop :=
  ∃ pages, Chain 0 (pageNext config.state.bytes) config.state.context.heapPages pages ∧
    ∀ page ∈ pages, ∃ nodes,
      Chain 0 (nodeNext config.state.bytes) (load64 config.state.bytes page) nodes ∧
        ∀ node ∈ nodes, load64 config.state.bytes node < size + 8

/-- A small `kmalloc` takes a frame from the free list only when no node has room. -/
def FrameNeeded (t : Taken HeapConfig HeapEvent) : Prop :=
  match t.label with
  | .kmalloc size _ => size ≤ 4040 →
      Frames.free t.after.freelist ≠ Frames.free t.before.freelist → NoRoom t.before size
  | _ => True

/-- The node that a block becomes part of is not longer than `largest` of its page: the node that
ends eight bytes below the block with it, or else the node that starts above the block with it,
or the block's own. -/
def FitsLargest (config : HeapConfig) (block : Block) : Prop :=
  let bytes := config.state.bytes
  let word := load64 bytes (block.pointer - 8)
  let largest := load64 bytes (pointerFrame block.pointer + 16)
  ∃ nodes, Chain 0 (nodeNext bytes) (load64 bytes (pointerFrame block.pointer)) nodes ∧
    (∀ low ∈ nodes, low + 24 + load64 bytes low = block.pointer - 24 →
      load64 bytes low + 16 + word ≤ largest) ∧
    ((∀ low ∈ nodes, ¬ low + 24 + load64 bytes low = block.pointer - 24) →
      ∀ high ∈ nodes, block.pointer + word = high → word + 16 + load64 bytes high ≤ largest) ∧
    word ≤ largest

def FitsFreed (t : Taken HeapConfig HeapEvent) : Prop :=
  match t.label with
  | .kfree block _ => block.size ≤ 4040 → FitsLargest t.before block
  | _ => True

section Largest

variable {mapping : Mapping} {config after : HeapConfig} {heap : Layout} {page : Page}
  {block : Block} {event : HeapEvent} {size : ℕ}

theorem NodesAt.map_length {bytes : Memory} {head : ℕ} {nodes : List Node}
    (h : NodesAt bytes head nodes 0) :
    (nodes.map Node.address).map (load64 bytes) = nodes.map Node.length := by
  rw [List.map_map]
  exact List.map_congr_left fun node hnode ↦ h.lengths node hnode

theorem Tracks.largestExact_iff (h : Tracks mapping config heap) :
    LargestExact config ↔ ∀ page ∈ heap.pages, page.Exact := by
  have hpage (page : Page) (hpage : page ∈ heap.pages) :
      load64 config.state.bytes (page.base + 16) =
        ((page.nodes.map Node.address).map (load64 config.state.bytes)).foldr max 0 ↔
          page.Exact := by
    have hat := h.represents.pages page hpage
    rw [hat.largest, hat.nodes.map_length, ← maxLength_eq_foldr, Page.Exact]
  constructor
  · rintro ⟨pages, hpages, hexact⟩ page hmem
    rw [Chain.unique hpages h.represents.chain] at hexact
    obtain ⟨nodes, hnodes, hmaximum⟩ := hexact page.base (List.mem_map_of_mem hmem)
    rw [Chain.unique hnodes (h.represents.pages page hmem).nodes.path] at hmaximum
    exact (hpage page hmem).mp hmaximum
  · intro hexact
    refine ⟨_, h.represents.chain, fun base hbase ↦ ?_⟩
    obtain ⟨page, hmem, rfl⟩ := List.mem_map.mp hbase
    exact ⟨_, (h.represents.pages page hmem).nodes.path, (hpage page hmem).mpr (hexact page hmem)⟩

/-- Whether a freed block fits is a matter of its page. -/
theorem Tracks.fitsLargest_iff (h : Tracks mapping config heap) (hpage : page ∈ heap.pages)
    (hblock : block ∈ page.blocks) (haligned : block.pointer % 4096 ≠ 0) :
    FitsLargest config block ↔ page.FitsLargest block := by
  have hat := h.represents.pages page hpage
  have hwithin := page.blocks_within block hblock
  have hbase := (h.represents.page_facts hpage).1
  simp only [Block.slot, Extent.stop] at hwithin
  have hbelow (low : Node) (hlow : low ∈ page.nodes) :
      low.address + 24 + load64 config.state.bytes low.address = block.pointer - 24 ↔
        Mergeable low (freedNode block) := by
    rw [hat.nodes.lengths low hlow]
    simp only [Mergeable, freedNode, Node.extent, Extent.stop]
    omega
  have habove (high : Node) : block.pointer + block.word = high.address ↔
      Mergeable (freedNode block) high := by
    simp only [Mergeable, freedNode, Node.extent, Extent.stop]
    omega
  dsimp only [FitsLargest]
  rw [pointerFrame_of_lt hbase (by omega) (by omega), hat.largest, hat.words block hblock]
  constructor
  · rintro ⟨nodes, hnodes, hlow, hhigh, halone⟩
    rw [Chain.unique hnodes hat.nodes.path] at hlow hhigh
    simp only [List.forall_mem_map] at hlow hhigh
    refine ⟨fun low hmem hmerge ↦ ?_, fun hnone high hmem hmerge ↦ ?_, halone⟩
    · have hle := hlow low hmem ((hbelow low hmem).mpr hmerge)
      rwa [hat.nodes.lengths low hmem] at hle
    · have hle := hhigh (fun low hmem hmerge ↦ hnone low hmem ((hbelow low hmem).mp hmerge)) high
        hmem ((habove high).mpr hmerge)
      rwa [hat.nodes.lengths high hmem] at hle
  · intro hfits
    refine ⟨_, hat.nodes.path, ?_, fun hnone ↦ ?_, hfits.alone⟩
    · refine List.forall_mem_map.mpr fun low hmem hmerge ↦ ?_
      rw [hat.nodes.lengths low hmem]
      exact hfits.below low hmem ((hbelow low hmem).mp hmerge)
    · refine List.forall_mem_map.mpr fun high hmem hmerge ↦ ?_
      rw [hat.nodes.lengths high hmem]
      refine hfits.above (fun low hlow hmerges ↦ ?_) high hmem ((habove high).mp hmerge)
      exact hnone low.address (List.mem_map_of_mem hlow) ((hbelow low hlow).mpr hmerges)

/-- With exact maxima, a small `kmalloc` that takes a frame had no node to use. -/
theorem Given.noRoom {pointer : ℕ} {state : AllocatorState} {next : Layout} {lock : ℕ}
    (h : Given mapping { config.state with memoryLock := lock } heap size pointer state next)
    (htracks : Tracks mapping config heap) (hexact : ∀ page ∈ heap.pages, page.Exact)
    (hsize : size ≤ 4040)
    (htaken : Frames.free state.context.freelist ≠ Frames.free config.freelist) :
    NoRoom config size := by
  cases h with
  | small _ hprepared =>
    cases hprepared with
    | found => exact absurd rfl htaken
    | fresh hsmall =>
      refine ⟨_, htracks.represents.chain, fun base hbase ↦ ?_⟩
      obtain ⟨page, hpage, rfl⟩ := List.mem_map.mp hbase
      have hnodes := (htracks.represents.pages page hpage).nodes
      refine ⟨_, hnodes.path, List.forall_mem_map.mpr fun node hnode ↦ ?_⟩
      rw [hnodes.lengths node hnode]
      calc node.length ≤ maxLength 0 page.nodes := length_le_maxLength hnode
        _ = page.largest := (hexact page hpage).symm
        _ < size + 8 := hsmall page hpage
  | large hlarge => exact absurd hlarge (not_lt.mpr hsize)

/-- A tracked heap with tidy pages and exact maxima. -/
structure Summarized (mapping : Mapping) (config : HeapConfig) (heap : Layout) : Prop
    extends Tracks mapping config heap where
  tidy : ∀ page ∈ heap.pages, page.Tidy
  exact : ∀ page ∈ heap.pages, page.Exact

theorem Booted.summarized {hhdmOffset : ℕ} (h : Booted hhdmOffset config) :
    Summarized h.mapping config ⟨[], ∅⟩ where
  toTracks := h.tracks
  tidy := nofun
  exact := nofun

/-- A call takes no frame without need, and keeps the maxima exact exactly if the block that it
frees fits. -/
theorem Summarized.step (h : Summarized mapping config heap) (hend : mapping.EndsBefore)
    (hoffset : mapping.hhdmOffset < 2 ^ 64)
    (hstep : HeapStep mapping.hhdmOffset config event after)
    (hkeeps : KeepsOwners mapping.hhdmOffset ⟨config, event, after⟩) :
    FrameNeeded ⟨config, event, after⟩ ∧
      ∃ next, Tracks mapping after next ∧ (∀ page ∈ next.pages, page.Tidy) ∧
        ((∀ page ∈ next.pages, page.Exact) ↔ FitsFreed ⟨config, event, after⟩) := by
  cases hstep with
  | @kmalloc size pointer state hrun =>
    obtain ⟨hcount, hgranted⟩ := hkeeps
    by_cases hserved : Granted size config.state
    · obtain ⟨hne, next, -, hgiven, hnext⟩ :=
        h.toTracks.kmalloc_given (Or.inr (Or.inl hend)) hcount hserved hrun
      rw [if_neg hne]
      exact ⟨fun hsize htaken ↦ hgiven.noRoom h.toTracks h.exact hsize htaken, next, hnext,
        hgiven.forall_pages Page.kept_tidy h.tidy,
        iff_of_true (hgiven.forall_pages Page.kept_exact h.exact) trivial⟩
    · obtain ⟨hsize, hfit⟩ := hgranted.resolve_left hserved
      rw [h.represents.kmalloc_refused h.lock_eq hoffset hsize hserved hfit] at hrun
      obtain ⟨rfl, rfl⟩ := Prod.mk.inj (Option.some.inj hrun)
      rw [if_pos rfl]
      exact ⟨fun _ htaken ↦ absurd rfl htaken, heap, h.toTracks, h.tidy,
        iff_of_true h.exact trivial⟩
  | @kfree block ok state hlive hrun =>
    obtain ⟨-, next, -, hreclaimed, hnext⟩ :=
      h.toTracks.kfree_reclaimed hlive hkeeps.1 hkeeps.2 hrun
    refine ⟨trivial, next, hnext, ?_⟩
    cases hreclaimed with
    | @small front back page hpages hblock =>
      have htidy := h.tidy
      have hexact := h.exact
      have hmem : page ∈ heap.pages := mem_of_eq_middle hpages
      rw [hpages, List.forall_mem_append, List.forall_mem_cons] at htidy hexact
      constructor
      · exact List.forall_mem_append.mpr
          ⟨htidy.1, List.forall_mem_cons.mpr ⟨htidy.2.1.release hblock, htidy.2.2⟩⟩
      · change _ ↔ (block.size ≤ 4040 → FitsLargest config block)
        rw [imp_iff_right (Page.size_le_small hblock), h.fitsLargest_iff hmem hblock hkeeps.1,
          ← htidy.2.1.exact_release_iff hexact.2.1 hblock, List.forall_mem_append,
          List.forall_mem_cons]
        exact ⟨fun hall ↦ hall.2.1, fun hpage ↦ ⟨hexact.1, hpage, hexact.2.2⟩⟩
    | large hlarge =>
      have hsize := (h.represents.large block hlarge).size_gt
      exact ⟨h.tidy, iff_of_true h.exact fun hsmall ↦ absurd hsize (not_lt.mpr hsmall)⟩
  | write hlive hroom =>
    exact ⟨trivial, heap, h.toTracks.write hlive hroom, h.tidy, iff_of_true h.exact trivial⟩
  | allocateFrame hrun =>
    rw [run_memoryAllocateFrame_empty h.represents.sound hkeeps] at hrun
    obtain ⟨rfl, rfl⟩ := Prod.mk.inj (Option.some.inj hrun)
    rw [if_pos rfl, add_zero]
    exact ⟨trivial, heap, h.toTracks, h.tidy, iff_of_true h.exact trivial⟩
  | freeFrame howned hrun =>
    rw [h.owned_eq] at howned
    exact absurd howned (Multiset.notMem_zero _)

/-- In the runs of calls that keep owners, the maxima are exact after every call and no frame is
taken without need exactly if every freed block fits. -/
theorem largest_exact_iff {hhdmOffset : ℕ} {start final : HeapConfig}
    {taken : List (Taken HeapConfig HeapEvent)} (hboot : Booted hhdmOffset start)
    (hend : ∀ frame ∈ Frames.free start.freelist, frame + hhdmOffset + 4096 < 2 ^ 64)
    (hoffset : hhdmOffset < 2 ^ 64) (hrun : Run (HeapStep hhdmOffset) start taken final)
    (hkeeps : ∀ t ∈ taken, KeepsOwners hhdmOffset t) :
    (∀ t ∈ taken, LargestExact t.after ∧ FrameNeeded t) ↔ ∀ t ∈ taken, FitsFreed t := by
  apply Iff.symm
  refine @Run.forall_iff_of _ _ _ _ _ _
    (fun config ↦ ∃ heap, Summarized hboot.mapping config heap) (KeepsOwners hhdmOffset) FitsFreed
    (fun t ↦ LargestExact t.after ∧ FrameNeeded t) ⟨_, hboot.summarized⟩ ?_ ?_ hrun hkeeps
  · rintro before event after ⟨heap, hheap⟩ hstep hcall hfits
    obtain ⟨-, next, hnext, htidy, hexact⟩ := hheap.step hend hoffset hstep hcall
    exact ⟨next, hnext, htidy, hexact.mpr hfits⟩
  · rintro before event after ⟨heap, hheap⟩ hstep hcall
    obtain ⟨hneeded, next, hnext, -, hexact⟩ := hheap.step hend hoffset hstep hcall
    rw [← hexact, hnext.largestExact_iff, and_iff_left hneeded]

/-- Freeing the first of two blocks leaves the maximum exact. -/
theorem largest_exact_twoBlocks : ∃ taken final, Run (HeapStep 0) bootedHeap taken final ∧
    (∃ t ∈ taken, ∃ block, t.label = .kfree block true) ∧
      ∀ t ∈ taken, LargestExact t.after ∧ FrameNeeded t := by
  obtain ⟨calls⟩ := exists_twoCalls
  obtain ⟨freed, -, haligned, hfree, -, -⟩ :=
    calls.tracks.exists_release calls.first_mem (show 0 < 64 by norm_num)
  have hrun := calls.run_taken.snoc _ hfree
  have hfits : calls.page.FitsLargest (twoBlocks calls.base).1 := by
    refine ⟨?_, ?_, ?_⟩ <;>
      simp [calls.nodes, calls.largest, twoBlocks, carvedBlock, remaining, Mergeable, freedNode,
        Node.extent, Extent.stop]
  refine ⟨_, _, hrun, ⟨_, List.mem_append_right _ (List.mem_singleton_self _), _, rfl⟩,
    (largest_exact_iff booted_bootedHeap (by decide) (by norm_num) hrun ?_).mpr ?_⟩
  · simp only [List.forall_mem_append, List.forall_mem_singleton, TwoCalls.forall_mem_taken]
    exact ⟨⟨⟨fun _ ↦ by decide, Or.inl calls.served.2.2⟩,
      fun _ ↦ by decide, Or.inl calls.served_again.2.2⟩, haligned,
      fun hlarge ↦ absurd hlarge (not_lt.mpr (Page.size_le_small calls.first_mem))⟩
  · simp only [List.forall_mem_append, List.forall_mem_singleton, TwoCalls.forall_mem_taken]
    exact ⟨⟨trivial, trivial⟩, fun _ ↦ (calls.tracks.fitsLargest_iff (List.mem_singleton_self _)
      calls.first_mem haligned).mpr hfits⟩

/-- After the first block is freed, the page has one node of 4040 bytes, and `largest` is 3960. -/
theorem largest_stale : ∃ taken final, Run (HeapStep 0) bootedHeap taken final ∧
    (∀ t ∈ taken, KeepsOwners 0 t) ∧ ¬ LargestExact final := by
  obtain ⟨pointer, state, base, hfit, hone, htracks⟩ := exists_firstPage
  have hnodes : ((Page.fresh base).carve [] ⟨base + 32, 4048⟩ [] 64 hfit).nodes =
      [⟨base + 120, 3960⟩] := rfl
  have hlargest : ((Page.fresh base).carve [] ⟨base + 32, 4048⟩ [] 64 hfit).largest = 3960 := rfl
  have hblock : carvedBlock ⟨base + 32, 4048⟩ 64 ∈
      ((Page.fresh base).carve [] ⟨base + 32, 4048⟩ [] 64 hfit).blocks :=
    Finset.mem_insert_self _ _
  generalize Page.carve _ [] ⟨base + 32, 4048⟩ [] 64 hfit = page at *
  have hlive : Layout.Live ⟨[page], ∅⟩ (carvedBlock ⟨base + 32, 4048⟩ 64) :=
    Or.inr ⟨page, List.mem_singleton_self _, hblock⟩
  have haligned := htracks.represents.pointer_not_aligned hlive (Nat.succ_pos 63)
  have hsmall : 4040 < (carvedBlock ⟨base + 32, 4048⟩ 64).size →
      state.context.freelist.cursor < 255 :=
    fun hlarge ↦ absurd hlarge (not_lt.mpr (Page.size_le_small hblock))
  obtain ⟨final, layout, htwo, hreclaimed, hfinal⟩ :=
    htracks.exists_kfree_reclaimed ((htracks.live_iff _).mpr hlive) haligned hsmall
  obtain rfl := hreclaimed.single hblock
  refine ⟨_, _, (Run.nil.snoc _ hone).snoc _ htwo, ?_, fun hexact ↦ ?_⟩
  · simp only [List.forall_mem_append, List.forall_mem_singleton, KeepsOwners, List.nil_append]
    exact ⟨⟨fun _ ↦ by decide, Or.inl granted_bootedHeap⟩, haligned, hsmall⟩
  · have hstale := hfinal.largestExact_iff.mp hexact _ (List.mem_singleton_self _)
    simp [Page.Exact, Page.release, Page.releasedNodes, hnodes, hlargest, carvedBlock, remaining,
      freedNode, nodesBefore, nodesAfter, coalesce, mergeFrom, Mergeable, Node.merge, Node.extent,
      Extent.stop, maxLength] at hstale

end Largest

end SideHOS.Heap
