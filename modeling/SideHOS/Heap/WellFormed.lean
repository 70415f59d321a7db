import SideHOS.Heap.Isolation

/-!
# Well-formed lists and the end of every loop

In every reachable state the page list is acyclic and each free list runs through its page from
low to high addresses.  Each loop of `kmalloc` and `kfree` takes one step for each element of such
a list, the merge loop because a step either shortens what is ahead of its cursor or moves the
cursor on.
-/

namespace SideHOS.Heap

open Kernel Linked Machine Machine.Word64 Machine.ByteMemory Sharing Sharing.Program Transition

/-- The addresses of a page's free nodes in list order: strictly increasing, and each node with its
free bytes behind the page header, within the page, and apart from the other nodes. -/
structure SortedList (bytes : Memory) (page : ℕ) (nodes : List ℕ) : Prop where
  chain : Chain 0 (nodeNext bytes) (load64 bytes page) nodes
  increasing : nodes.Pairwise fun first second ↦ first < second
  within : ∀ node ∈ nodes,
    page + 32 ≤ node ∧ node + 16 + load64 bytes node ≤ page + 4096
  apart : nodes.Pairwise fun first second ↦
    Extent.Apart ⟨first, 16 + load64 bytes first⟩ ⟨second, 16 + load64 bytes second⟩

/-- A loop ends after one step for each of `length` elements and one more. -/
def EndsAfter {α : Type} (state : AllocatorState) (length : ℕ) (loop : ℕ → Code α) : Prop :=
  ∀ fuel, length < fuel → ∃ result, run exec (loop fuel) state = some result

/-- The loops along the free list of a page. -/
structure NodeLoopsEnd (state : AllocatorState) (page : ℕ) (nodes : List ℕ) : Prop where
  nodeSearch : ∀ totalSize, EndsAfter state nodes.length fun fuel ↦
    nodeSearch totalSize fuel 0 (load64 state.bytes page)
  maximumScan : EndsAfter state nodes.length fun fuel ↦
    maximumScan fuel (load64 state.bytes page) 0
  insertWalk : ∀ address, EndsAfter state nodes.length fun fuel ↦
    insertWalk address fuel 0 (load64 state.bytes page)
  mergeLoop : ∀ node ∈ nodes, EndsAfter state nodes.length fun fuel ↦ mergeLoop fuel node

/-- Both kinds of lists are well formed, and all loops along them end. -/
structure WellFormed (state : AllocatorState) (pages : List ℕ) : Prop where
  chain : Chain 0 (pageNext state.bytes) state.context.heapPages pages
  nodup : pages.Nodup
  pageWalk : ∀ totalSize, EndsAfter state pages.length fun fuel ↦
    pageWalk totalSize fuel state.context.heapPages
  lists : ∀ page ∈ pages, ∃ nodes, SortedList state.bytes page nodes ∧
    NodeLoopsEnd state page nodes

/-- `kmalloc` returns when its frames are granted, and `kfree` of a live block returns. -/
structure CallsReturn (hhdmOffset : ℕ) (config : HeapConfig) : Prop where
  kmalloc : ∀ size, 1 ≤ size → size ≤ maximumSize → Granted size config.state →
    ∃ pointer after, run exec (kmalloc hhdmOffset size) config.state = some (pointer, after)
  kfree : ∀ block ∈ config.live, ∃ after,
    run exec (kfree hhdmOffset block.pointer) config.state = some (true, after)

section WellFormed

variable {mapping : Mapping} {config : HeapConfig} {heap : Layout} {page : Page}
  {state : AllocatorState} {bytes : Memory}

/-- The free list of a represented page is sorted. -/
theorem PageAt.sortedList (h : PageAt bytes page) :
    SortedList bytes page.base (page.nodes.map Node.address) where
  chain := h.nodes.path
  increasing := by
    rw [List.pairwise_map]
    refine page.ordered.pairwise.imp fun {first second} hstop ↦ ?_
    simp only [Node.extent, Extent.stop] at hstop
    omega
  within := by
    rw [List.forall_mem_map]
    intro node hnode
    have hwithin := page.ordered.within node hnode
    rw [h.nodes.lengths node hnode]
    simp only [Node.extent, Extent.stop] at hwithin
    omega
  apart := by
    rw [List.pairwise_map]
    refine page.ordered.pairwise.imp_of_mem fun {first second} hfirst hsecond hstop ↦ ?_
    rw [h.nodes.lengths first hfirst, h.nodes.lengths second hsecond]
    exact Or.inl hstop

/-- From any node of its list on, the merge loop ends. -/
theorem PageAt.mergeLoop_ends (h : PageAt state.bytes page) (hword : page.base + 4096 ≤ 2 ^ 64)
    {node : Node} (hnode : node ∈ page.nodes) :
    EndsAfter state page.nodes.length fun fuel ↦ mergeLoop fuel node.address := by
  intro fuel hfuel
  obtain ⟨front, back, hsplit⟩ := List.mem_iff_append.mp hnode
  have hnodes := h.nodes
  have hordered := page.ordered
  rw [hsplit, List.length_append, List.length_cons] at hfuel
  rw [hsplit] at hnodes hordered
  have hrest_fuel : back.length < fuel := by omega
  obtain ⟨middle, -, hrest⟩ := nodesAt_append.mp hnodes
  obtain ⟨rfl, -⟩ := nodesAt_cons.mp hrest
  have hpairwise := (List.pairwise_append.mp hordered.pairwise).2.1
  have hwithin := (List.forall_mem_append.mp hordered.within).2
  obtain ⟨merged, hrun, -⟩ := run_mergeLoop hrest ⟨hpairwise, hwithin⟩ hword hrest_fuel
  exact ⟨_, hrun⟩

theorem PageAt.nodeLoopsEnd (h : PageAt state.bytes page) (hword : page.base + 4096 ≤ 2 ^ 64) :
    NodeLoopsEnd state page.base (page.nodes.map Node.address) where
  nodeSearch _ _ hfuel := ⟨_, run_nodeSearch h.nodes.path hfuel⟩
  maximumScan fuel hfuel := by
    rw [List.length_map] at hfuel
    exact ⟨_, run_maximumScan h.nodes hfuel⟩
  insertWalk address fuel hfuel := by
    rw [List.length_map] at hfuel
    exact ⟨_, run_insertWalk h.nodes hfuel⟩
  mergeLoop := by
    rw [List.forall_mem_map, List.length_map]
    exact fun node hnode ↦ h.mergeLoop_ends hword hnode

/-- The lists of a represented heap are well formed. -/
theorem Represents.wellFormed (h : Represents mapping state heap) :
    WellFormed state (heap.pages.map Page.base) where
  chain := h.chain
  nodup := h.nodup_bases
  pageWalk _ _ hfuel := ⟨_, Heap.run_pageWalk h.chain hfuel⟩
  lists := by
    rw [List.forall_mem_map]
    intro page hpage
    have hat := h.pages page hpage
    exact ⟨_, hat.sortedList, hat.nodeLoopsEnd (h.page_facts hpage).2.2⟩

/-- The next call of a served heap returns. -/
theorem Serves.callsReturn (h : Serves mapping maximumSize config heap)
    (hcursor : config.freelist.cursor < 255) : CallsReturn mapping.hhdmOffset config where
  kmalloc size hpos hle hgranted := by
    have hmaximum := maximumSize_lt
    have hcount := (@frameCounts_bounds size (by omega)).1
    obtain ⟨pointer, after, -, hrun, -⟩ :=
      h.represents.kmalloc_given h.lock_eq (Or.inl hpos) (fun _ ↦ hcount) hgranted
    exact ⟨pointer, after, hrun⟩
  kfree block hlive := by
    have hblock := (h.live_iff block).mp hlive
    have haligned := h.represents.pointer_not_aligned hblock (h.sizes block hlive).1
    obtain ⟨after, -, hrun, -⟩ :=
      h.represents.kfree_reclaimed h.lock_eq hblock haligned fun _ ↦ hcursor
    exact ⟨after, hrun⟩

/-- In every state of a run of `kmalloc` and `kfree`, the lists are well formed, the loops along
them end, and the next call returns. -/
theorem heap_loops_end {hhdmOffset : ℕ} {start final : HeapConfig}
    {taken : List (Taken HeapConfig HeapEvent)} (hboot : Booted hhdmOffset start)
    (hentries : start.freelist.cursor ≤ 127) (hrun : Run (HeapStep hhdmOffset) start taken final)
    (hserved : ∀ t ∈ taken, Served maximumSize t)
    (hcursor : ∀ t ∈ taken, t.after.freelist.cursor ≤ 127) :
    (∃ pages, WellFormed final.state pages) ∧ CallsReturn hhdmOffset final := by
  obtain ⟨⟨heap, hheap⟩, hle⟩ :=
    serves_of_run hboot maximumSize_lt hentries hrun hserved hcursor
  exact ⟨⟨_, hheap.represents.wellFormed⟩, hheap.callsReturn (by omega)⟩

theorem heap_loops_end_reused : ∃ taken final, Reused taken final ∧
    (∃ pages, WellFormed final.state pages) ∧ CallsReturn 0 final := by
  obtain ⟨taken, final, hreused⟩ := exists_reused
  exact ⟨taken, final, hreused, heap_loops_end booted_bootedHeap (by decide) hreused.run
    (fun t ht ↦ (hreused.served t ht).mono (by norm_num [maximumSize])) hreused.cursor⟩

end WellFormed

end SideHOS.Heap
