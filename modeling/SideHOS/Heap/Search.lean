import SideHOS.Heap.Largest
import SideHOS.Heap.WellFormed

/-!
# The search in the chosen page

`largest` is computed when a block is carved and not when one is freed, so it may be too small.
It is never too large, and a page chosen for its `largest` has a node that is long enough: the
search of `kmalloc` does not come to the end of the list.
-/

namespace SideHOS.Heap

open Kernel Linked Machine Machine.Word64 Machine.ByteMemory Sharing Sharing.Program Transition

/-- The search in the page stops at a node, which `kmalloc` goes on to carve. -/
def SearchSucceeds (state : AllocatorState) (page size : ℕ) : Prop :=
  ∃ prev node, node ≠ 0 ∧
    run exec (nodeSearch (size + 8) walkFuel 0 (load64 state.bytes page)) state =
      some ((prev, node), state) ∧
    run exec (kmallocIn size (size + 8) page) state =
      run exec (carveNode size (size + 8) page prev node) state

/-- Wherever `kmalloc` may search for a node, it finds one. -/
structure ChosenHasRoom (hhdmOffset : ℕ) (state : AllocatorState) : Prop where
  walked : ∀ size ≤ 4040, ∀ page,
    run exec (pageWalk (size + 8) walkFuel state.context.heapPages) state = some (page, state) →
      page ≠ 0 → SearchSucceeds state page size
  allocated : ∀ size ≤ 4040, ∀ frame after,
    run exec (memoryAllocateFrame hhdmOffset) state = some (frame, after) → frame ≠ 0 →
      SearchSucceeds after (addressPhysicalToVirtual hhdmOffset frame) size

/-- No `largest` exceeds the maximum length on the page's free list, and no length has its sign
bit set. -/
def LargestUnderestimates (state : AllocatorState) : Prop :=
  ∃ pages, Chain 0 (pageNext state.bytes) state.context.heapPages pages ∧
    ∀ page ∈ pages, ∃ nodes, Chain 0 (nodeNext state.bytes) (load64 state.bytes page) nodes ∧
      load64 state.bytes (page + 16) ≤ (nodes.map (load64 state.bytes)).foldr max 0 ∧
      ∀ node ∈ nodes, load64 state.bytes node < 2 ^ 63

/-- A small request whose frame is granted comes to `carveNode` with a node. -/
def Carves (hhdmOffset size : ℕ) (state : AllocatorState) : Prop :=
  ∃ page prev node middle, node ≠ 0 ∧ run exec (kmalloc hhdmOffset size) state =
    run exec (carveNode size (size + 8) page prev node) middle

section Search

variable {mapping : Mapping} {config : HeapConfig} {heap : Layout} {page : Page}
  {state : AllocatorState} {size : ℕ}

theorem Page.largest_le_maxLength (page : Page) : page.largest ≤ maxLength 0 page.nodes := by
  rcases Nat.eq_zero_or_pos page.largest with hzero | hpos
  · rw [hzero]
    exact Nat.zero_le _
  · obtain ⟨node, hnode, hle⟩ := page.largest_le hpos
    exact hle.trans (length_le_maxLength hnode)

/-- In a represented page the search finds whatever `largest` promises. -/
theorem PageAt.searchSucceeds (h : PageAt state.bytes page) (hword : page.base + 4096 ≤ 2 ^ 64)
    (hlargest : size + 8 ≤ page.largest) : SearchSucceeds state page.base size := by
  obtain ⟨longest, hlongest, hle⟩ := page.largest_le (by omega)
  obtain ⟨before, node, behind, hfit, hfirst⟩ := exists_fit ⟨longest, hlongest, hlargest.trans hle⟩
  have hsearch := h.run_search hword hfit hfirst
  refine ⟨lastAddress before, node.address, hfit.address_ne_zero, hsearch, ?_⟩
  rw [kmallocIn, loadPageFreelist, run_load, run_bind_of_eq hsearch]
  simp only [if_neg hfit.address_ne_zero]

theorem Represents.chosenHasRoom (h : Represents mapping state heap) :
    ChosenHasRoom mapping.hhdmOffset state where
  walked size _ base hwalk hne := by
    obtain ⟨rfl, -⟩ := Prod.mk.inj (Option.some.inj (h.run_pageWalk.symm.trans hwalk))
    cases hfind : heap.pages.find? fun page ↦ decide (size + 8 ≤ page.largest) with
    | none =>
      rw [hfind] at hne
      exact absurd rfl hne
    | some page =>
      have hmem := List.mem_of_find?_eq_some hfind
      have hlargest := List.find?_some hfind
      exact (h.pages page hmem).searchSucceeds (h.page_facts hmem).2.2 (of_decide_eq_true hlargest)
  allocated size hsize frame after hrun hframe := by
    obtain ⟨hadd, -, hafter⟩ := h.newPage hrun hframe
    have hmem : Page.fresh (frame + mapping.hhdmOffset) ∈
        (⟨Page.fresh (frame + mapping.hhdmOffset) :: heap.pages, heap.large⟩ : Layout).pages :=
      List.mem_cons_self
    rw [addressPhysicalToVirtual, hadd]
    refine (hafter.pages _ hmem).searchSucceeds (hafter.page_facts hmem).2.2 ?_
    change size + 8 ≤ 4048
    omega

theorem Represents.largestUnderestimates (h : Represents mapping state heap) :
    LargestUnderestimates state := by
  refine ⟨_, h.chain, ?_⟩
  rw [List.forall_mem_map]
  intro page hpage
  have hat := h.pages page hpage
  refine ⟨_, hat.nodes.path, ?_, ?_⟩
  · rw [hat.largest, hat.nodes.map_length, ← maxLength_eq_foldr]
    exact page.largest_le_maxLength
  · rw [List.forall_mem_map]
    intro node hnode
    have hwithin := page.ordered.within node hnode
    rw [hat.nodes.lengths node hnode]
    simp only [Node.extent, Extent.stop] at hwithin
    omega

/-- Choosing a page and searching in it, as `kmalloc` does. -/
theorem Tracks.carves (h : Tracks mapping config heap) (hsize : size ≤ 4040)
    (hgranted : Granted size config.state) :
    Carves mapping.hhdmOffset size config.state := by
  obtain ⟨choice⟩ := (h.represents.withLock 1).exists_choice hsize hgranted
  obtain ⟨prev, node, hne, -, hcarve⟩ :=
    choice.pageAt.searchSucceeds choice.page_facts.2.2 choice.largest_le
  refine ⟨choice.page.base, prev, node, choice.middle, hne, ?_⟩
  have htotal : add size 8 = size + 8 := add_of_lt (by omega)
  rw [run_kmalloc_of_le h.lock_eq hsize]
  unfold Kernel.kmallocSmall
  simp only [sizeofU64, htotal]
  rw [run_bind_of_eq choice.chooses, hcarve]

/-- In every state of a run, the search in a chosen page succeeds. -/
theorem chosen_page_has_room {hhdmOffset : ℕ} {start final : HeapConfig}
    {taken : List (Taken HeapConfig HeapEvent)} (hboot : Booted hhdmOffset start)
    (hentries : start.freelist.cursor ≤ 127) (hrun : Run (HeapStep hhdmOffset) start taken final)
    (hserved : ∀ t ∈ taken, Served maximumSize t)
    (hcursor : ∀ t ∈ taken, t.after.freelist.cursor ≤ 127) :
    ChosenHasRoom hhdmOffset { final.state with memoryLock := 1 } ∧
      LargestUnderestimates final.state ∧
      ∀ size ≤ 4040, Granted size final.state → Carves hhdmOffset size final.state := by
  obtain ⟨⟨heap, hheap⟩, -⟩ :=
    serves_of_run hboot maximumSize_lt hentries hrun hserved hcursor
  refine ⟨(hheap.represents.withLock 1).chosenHasRoom, hheap.represents.largestUnderestimates, ?_⟩
  exact fun size hsize hgranted ↦ hheap.toTracks.carves hsize hgranted

theorem chosen_page_has_room_reused : ∃ taken final, Reused taken final ∧
    ChosenHasRoom 0 { final.state with memoryLock := 1 } ∧ LargestUnderestimates final.state ∧
      ∀ size ≤ 4040, Granted size final.state → Carves 0 size final.state := by
  obtain ⟨taken, final, hreused⟩ := exists_reused
  exact ⟨taken, final, hreused, chosen_page_has_room booted_bootedHeap (by decide) hreused.run
    (fun t ht ↦ (hreused.served t ht).mono (by norm_num [maximumSize])) hreused.cursor⟩

end Search

end SideHOS.Heap
