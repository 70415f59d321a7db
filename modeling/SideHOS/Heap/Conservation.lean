import SideHOS.Heap.Isolation

/-!
# What a heap page loses

The free nodes of a heap page and its live blocks, each with its headers, fill the page exactly as
long as no block of the page was freed.  `kfree` makes a node of a block's size word only, so each
free loses the eight bytes of the word itself.
-/

namespace SideHOS.Heap

open Kernel Linked Machine Machine.Word64 Machine.ByteMemory Sharing Sharing.Program Transition

/-- The bytes of the live blocks in a page, as the size words in memory count them. -/
def liveBytes (config : HeapConfig) (page : ℕ) : ℕ :=
  ((config.live.filter fun block ↦ page ≤ block.pointer ∧ block.pointer < page + 4096).map
    fun block ↦ 24 + load64 config.state.bytes (block.pointer - 8)).sum

/-- The bytes of free nodes, as memory counts them. -/
def freeBytes (config : HeapConfig) (nodes : List ℕ) : ℕ :=
  (nodes.map fun node ↦ 16 + load64 config.state.bytes node).sum

/-- On every heap page, free nodes and live blocks add up to the page without its header. -/
def Conserved (config : HeapConfig) : Prop :=
  ∃ pages, Chain 0 (pageNext config.state.bytes) config.state.context.heapPages pages ∧
    ∀ page ∈ pages, ∃ nodes,
      Chain 0 (nodeNext config.state.bytes) (load64 config.state.bytes page) nodes ∧
        freeBytes config nodes + liveBytes config page = 4096 - 32

section Conserved

variable {mapping : Mapping} {config : HeapConfig} {heap : Layout} {page : Page} {block : Block}
  {maximum : ℕ}

/-- The live blocks whose pointers lie in a page are the blocks of the page. -/
theorem Serves.mem_blocks_iff (h : Serves mapping maximum config heap) (hpage : page ∈ heap.pages) :
    block ∈ config.live ∧ page.base ≤ block.pointer ∧ block.pointer < page.base + 4096 ↔
      block ∈ page.blocks := by
  constructor
  · rintro ⟨hlive, hlow, hhigh⟩
    have hholds : page.extent.Holds block.pointer := ⟨hlow, hhigh⟩
    rcases (h.live_iff block).mp hlive with hlarge | ⟨other, hother, hblock⟩
    · refine absurd ?_ ((h.represents.page_large_apart hpage hlarge).not_holds hholds)
      have hpointer := (h.represents.large block hlarge).pointer_ge
      have hcount := (h.represents.large block hlarge).count_pos
      simp only [Block.span, Extent.Holds, Extent.stop]
      omega
    · by_cases heq : other = page
      · rwa [← heq]
      · refine absurd hholds ((h.represents.pages_apart_of_ne hpage hother heq).not_holds ?_)
        have hwithin := other.blocks_within block hblock
        have hsize := (h.sizes block hlive).1
        have hle := other.size_le block hblock
        simp only [Block.slot, Extent.stop] at hwithin
        simp only [Page.extent, Extent.Holds, Extent.stop]
        omega
  · intro hblock
    have hlive := (h.live_iff block).mpr (Or.inr ⟨page, hpage, hblock⟩)
    have hwithin := page.blocks_within block hblock
    have hsize := (h.sizes block hlive).1
    have hle := page.size_le block hblock
    simp only [Block.slot, Extent.stop] at hwithin
    exact ⟨hlive, by omega, by omega⟩

theorem Serves.liveBytes_eq (h : Serves mapping maximum config heap) (hpage : page ∈ heap.pages) :
    liveBytes config page.base = ∑ block ∈ page.blocks, (24 + block.word) := by
  have hfinset : (config.live.filter fun block ↦ page.base ≤ block.pointer ∧
      block.pointer < page.base + 4096).toFinset = page.blocks := by
    ext block
    rw [List.mem_toFinset, List.mem_filter, decide_eq_true_eq]
    exact h.mem_blocks_iff hpage
  rw [liveBytes, ← List.sum_toFinset _ (h.nodup.filter _), hfinset]
  exact Finset.sum_congr rfl fun block hblock ↦ by
    rw [(h.represents.pages page hpage).words block hblock]

theorem PageAt.freeBytes_eq (h : PageAt config.state.bytes page) :
    freeBytes config (page.nodes.map Node.address) = nodeBytes page.nodes := by
  unfold freeBytes nodeBytes
  rw [List.map_map]
  exact congrArg List.sum (List.map_congr_left fun node hnode ↦ by
    rw [Function.comp_apply, h.nodes.lengths node hnode])

/-- Eight bytes of a page are missing for each block that was freed into it. -/
theorem Serves.deficit (h : Serves mapping maximum config heap) (hpage : page ∈ heap.pages) :
    freeBytes config (page.nodes.map Node.address) + liveBytes config page.base + 8 * page.lost =
      4096 - 32 := by
  rw [(h.represents.pages page hpage).freeBytes_eq, h.liveBytes_eq hpage]
  exact page.balance

/-- Nothing is missing exactly if nothing was freed into a page. -/
theorem Serves.conserved_iff (h : Serves mapping maximum config heap) :
    Conserved config ↔ heap.lost = 0 := by
  have hlost : heap.lost = 0 ↔ ∀ page ∈ heap.pages, page.lost = 0 := by
    rw [Layout.lost, List.sum_eq_zero_iff, List.forall_mem_map]
  rw [hlost]
  constructor
  · rintro ⟨pages, hpages, hbytes⟩ page hpage
    rw [Chain.unique hpages h.represents.chain] at hbytes
    obtain ⟨nodes, hnodes, hsum⟩ := hbytes page.base (List.mem_map_of_mem hpage)
    rw [Chain.unique hnodes (h.represents.pages page hpage).nodes.path] at hsum
    have hdeficit := h.deficit hpage
    omega
  · intro hzero
    refine ⟨_, h.represents.chain, fun base hbase ↦ ?_⟩
    obtain ⟨page, hpage, rfl⟩ := List.mem_map.mp hbase
    refine ⟨_, (h.represents.pages page hpage).nodes.path, ?_⟩
    have hdeficit := h.deficit hpage
    rw [hzero page hpage] at hdeficit
    exact hdeficit

def HeapEvent.isKfree : HeapEvent → Bool
  | .kfree _ _ => true
  | _ => false

theorem HeapEvent.isKfree_iff {event : HeapEvent} :
    event.isKfree = true ↔ ∃ block ok, event = .kfree block ok := by
  cases event <;> simp [HeapEvent.isKfree]

theorem Serves.released_eq {event : HeapEvent} {after : HeapConfig}
    (h : Serves mapping 4040 config heap)
    (hstep : HeapStep mapping.hhdmOffset config event after) :
    event.released = if event.isKfree then 1 else 0 := by
  cases hstep with
  | kfree hlive hrun => exact if_neg (not_lt.mpr (h.sizes _ hlive).2)
  | _ => rfl

/-- In a run of the heap alone the pages have lost one size word for each block freed. -/
theorem exists_serves_lost {hhdmOffset : ℕ} {start final : HeapConfig}
    {taken : List (Taken HeapConfig HeapEvent)} (hboot : Booted hhdmOffset start)
    (hrun : Run (HeapStep hhdmOffset) start taken final)
    (hserved : ∀ t ∈ taken, Served 4040 t) :
    ∃ heap, Serves hboot.mapping 4040 final heap ∧
      heap.lost = taken.countP fun t ↦ t.label.isKfree := by
  induction hrun with
  | nil => exact ⟨_, hboot.serves _, rfl⟩
  | @snoc taken before label after earlier last ih =>
    rw [List.forall_mem_append, List.forall_mem_singleton] at hserved
    obtain ⟨heap, hheap, hlost⟩ := ih hserved.1
    obtain ⟨next, hnextLost, hnext⟩ := hheap.step (by norm_num) (by norm_num) last hserved.2
    refine ⟨next, hnext, ?_⟩
    rw [List.countP_append, List.countP_singleton, hnextLost, hlost, hheap.released_eq last]

/-- The pages add up in a state of a run if and only if no block was freed on the way there. -/
theorem heap_bytes_conserved_iff {hhdmOffset : ℕ} {start final : HeapConfig}
    {taken : List (Taken HeapConfig HeapEvent)} (hboot : Booted hhdmOffset start)
    (hrun : Run (HeapStep hhdmOffset) start taken final)
    (hserved : ∀ t ∈ taken, Served 4040 t) :
    Conserved final ↔ ∀ t ∈ taken, ∀ block ok, t.label ≠ .kfree block ok := by
  obtain ⟨heap, hheap, hlost⟩ := exists_serves_lost hboot hrun hserved
  rw [hheap.conserved_iff, hlost, List.countP_eq_zero]
  refine forall₂_congr fun t _ ↦ ?_
  rw [HeapEvent.isKfree_iff]
  push Not
  rfl

theorem heap_bytes_conserved_firstBlock : ∃ pointer after,
    Conserved ⟨after, [givenBlock 64 pointer after], 0⟩ := by
  obtain ⟨pointer, after, taken, -, rfl, hrun, hserved, -⟩ := exists_firstRun
  refine ⟨pointer, after, (heap_bytes_conserved_iff booted_bootedHeap hrun
    (hserved _ (by norm_num))).mpr fun t ht ↦ ?_⟩
  rw [List.mem_singleton.mp ht]
  exact fun _ _ ↦ HeapEvent.noConfusion

/-- A block can be freed right after it was allocated. -/
theorem exists_run_kfree : ∃ taken final, Run (HeapStep 0) bootedHeap taken final ∧
    (∀ t ∈ taken, Served 4040 t) ∧ taken.countP (fun t ↦ t.label.isKfree) = 1 := by
  obtain ⟨pointer, after, -, -, hfirst⟩ := exists_firstBlock
  obtain ⟨heap, -, hheap⟩ := (booted_bootedHeap.serves 4040).step (by norm_num) (by norm_num)
    hfirst (served_firstBlock (by norm_num))
  have hlive : givenBlock 64 pointer after ∈ [givenBlock 64 pointer after] :=
    List.mem_singleton_self _
  have haligned := hheap.represents.pointer_not_aligned ((hheap.live_iff _).mp hlive)
    (show 0 < 64 by norm_num)
  obtain ⟨after', hsecond⟩ := hheap.toTracks.exists_kfree hlive haligned
    (fun hlarge ↦ absurd hlarge (show ¬ 4040 < 64 by norm_num))
  refine ⟨_, _, Run.snoc _ (Run.snoc _ Run.nil hfirst) hsecond, ?_, rfl⟩
  intro t ht
  simp only [List.nil_append, List.cons_append, List.mem_cons, List.not_mem_nil, or_false] at ht
  rcases ht with rfl | rfl
  · exact served_firstBlock (by norm_num)
  · trivial

/-- Allocating 64 bytes and freeing them again leaves a page that is eight bytes short. -/
theorem heap_bytes_lost : ∃ taken final, Run (HeapStep 0) bootedHeap taken final ∧
    (∀ t ∈ taken, Served 4040 t) ∧ ¬ Conserved final := by
  obtain ⟨taken, final, hrun, hserved, hcount⟩ := exists_run_kfree
  obtain ⟨heap, hheap, hlost⟩ := exists_serves_lost booted_bootedHeap hrun hserved
  refine ⟨taken, final, hrun, hserved, ?_⟩
  rw [hheap.conserved_iff, hlost, hcount]
  exact one_ne_zero

end Conserved

end SideHOS.Heap
