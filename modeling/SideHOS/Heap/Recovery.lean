import SideHOS.Heap.Largest
import SideHOS.Heap.Requests

/-!
# Pages found from pointers

`kfree` finds the page of a block by masking its pointer, which is 24 bytes behind the node the
block was carved from.  A node ends with its page and has room for the request and its size word,
so a pointer leaves its page for an empty request only, and only when the node is in the last 24
bytes of the page.  In runs without such a request every block is freed into its own page.
-/

namespace SideHOS.Heap

open Kernel Linked Machine Machine.Word64 Machine.ByteMemory Sharing Sharing.Program Transition

/-- The page in which a small `kmalloc` carves. -/
def ChoosesPage (hhdmOffset size : ℕ) (state : AllocatorState) (page : ℕ) : Prop :=
  ∃ middle, run exec (choosePage hhdmOffset (size + 8)) { state with memoryLock := 1 } =
    some (page, middle)

/-- A freed block is in a node of the free list of a heap page, but for the last 16 bytes, and
nothing outside of the page has changed. -/
structure Relinked (before after : AllocatorState) (block : Block) (page : ℕ) : Prop where
  linked : ∃ pages, Chain 0 (pageNext before.bytes) before.context.heapPages pages ∧ page ∈ pages
  node : ∃ nodes, Chain 0 (nodeNext after.bytes) (load64 after.bytes page) nodes ∧
    ∃ node ∈ nodes,
      Extent.Within ⟨block.pointer - 24, 8 + load64 before.bytes (block.pointer - 8)⟩
        ⟨node, 16 + load64 after.bytes node⟩
  outside : ∀ x, ¬ Extent.Holds ⟨page, 4096⟩ x → after.bytes x = before.bytes x
  context_eq : after.context = before.context

/-- The pointer to a small block leads to the page it was carved from, and a small block is freed
into the page its pointer leads to. -/
def FindsPage (hhdmOffset : ℕ) (t : Taken HeapConfig HeapEvent) : Prop :=
  match t.label with
  | .kmalloc size pointer => size ≤ 4040 → pointer ≠ 0 →
      ∃ page, ChoosesPage hhdmOffset size t.before.state page ∧ pointerFrame pointer = page
  | .kfree block ok => block.size ≤ 4040 →
      ok = true ∧ Relinked t.before.state t.after.state block (pointerFrame block.pointer)
  | _ => True

/-- Only the heap is called.  A `kmalloc` gets its frames, or is small and finds nothing in frame 0;
an empty one meets no tight fit; and a `kfree` finds room in the table for frames. -/
def KeepsPages (hhdmOffset : ℕ) (t : Taken HeapConfig HeapEvent) : Prop :=
  match t.label with
  | .kmalloc size _ => (4040 < size → 0 < frameCounts size) ∧
      (Granted size t.before.state ∨
        size ≤ 4040 ∧ NoFit hhdmOffset size t.before.state.bytes) ∧
      (size = 0 → ¬ TightFit t.before.state)
  | .kfree block _ => 4040 < block.size → t.before.freelist.cursor < 255
  | .write _ _ _ => True
  | .allocateFrame _ => False
  | .freeFrame _ _ => False

/-- A tracked heap in which no pointer is at the start of a frame. -/
structure Findable (mapping : Mapping) (config : HeapConfig) (heap : Layout) : Prop
    extends Tracks mapping config heap where
  not_aligned : ∀ block ∈ config.live, block.pointer % 4096 ≠ 0

section Recovery

variable {mapping : Mapping} {config after : HeapConfig} {heap next : Layout} {page : Page}
  {block : Block} {event : HeapEvent} {state : AllocatorState} {size pointer : ℕ}

/-- The merge loop loses at most the last 8 bytes of a node. -/
theorem mergeFrom_covers (node : Node) (nodes : List Node) :
    (∃ merged ∈ mergeFrom node nodes, node.extent.Within merged.extent) ∧
      ∀ other ∈ nodes, ∃ merged ∈ mergeFrom node nodes,
        Extent.Within ⟨other.address, 8 + other.length⟩ merged.extent := by
  induction nodes generalizing node with
  | nil => exact ⟨⟨node, List.mem_singleton_self _, le_rfl, le_rfl⟩, nofun⟩
  | cons second rest ih =>
    rw [mergeFrom]
    split_ifs with hmergeable
    · obtain ⟨⟨merged, hmem, hwithin⟩, hrest⟩ := ih (node.merge second)
      have hboth : node.extent.Within (node.merge second).extent ∧
          Extent.Within ⟨second.address, 8 + second.length⟩ (node.merge second).extent := by
        simp only [Mergeable, Node.extent, Extent.stop] at hmergeable
        simp only [Node.merge, Node.extent, Extent.Within, Extent.stop]
        omega
      refine ⟨⟨merged, hmem, hboth.1.trans hwithin⟩, List.forall_mem_cons.mpr ⟨?_, hrest⟩⟩
      exact ⟨merged, hmem, hboth.2.trans hwithin⟩
    · obtain ⟨⟨merged, hmem, hwithin⟩, hrest⟩ := ih second
      refine ⟨⟨node, List.mem_cons_self, le_rfl, le_rfl⟩, List.forall_mem_cons.mpr ⟨?_, ?_⟩⟩
      · refine ⟨merged, List.mem_cons_of_mem _ hmem, Extent.Within.trans ?_ hwithin⟩
        simp only [Node.extent, Extent.Within, Extent.stop]
        omega
      · intro other hother
        obtain ⟨merged, hmem, hwithin⟩ := hrest other hother
        exact ⟨merged, List.mem_cons_of_mem _ hmem, hwithin⟩

/-- So does inserting a node in its place. -/
theorem coalesce_covers (node : Node) (back front : List Node) :
    ∃ merged ∈ coalesce node back front,
      Extent.Within ⟨node.address, 8 + node.length⟩ merged.extent := by
  induction front with
  | nil =>
    obtain ⟨⟨merged, hmem, hwithin⟩, -⟩ := mergeFrom_covers node back
    refine ⟨merged, hmem, Extent.Within.trans ?_ hwithin⟩
    simp only [Node.extent, Extent.Within, Extent.stop]
    omega
  | cons first rest ih =>
    cases rest with
    | nil => exact (mergeFrom_covers first (node :: back)).2 node List.mem_cons_self
    | cons second rest =>
      obtain ⟨merged, hmem, hwithin⟩ := ih
      exact ⟨merged, List.mem_cons_of_mem _ hmem, hwithin⟩

/-- The pointer that a small `kmalloc` answers is in the page it chose, or the request was empty
and met a tight fit. -/
theorem Tracks.kmalloc_finds (h : Tracks mapping config heap) (hsize : size ≤ 4040)
    (hgranted : Granted size config.state)
    (hclear : size = 0 → ¬ TightFit config.state) {memory : AllocatorState}
    (hrun : run exec (Kernel.kmalloc mapping.hhdmOffset size) config.state =
      some (pointer, memory)) :
    ∃ page, ChoosesPage mapping.hhdmOffset size config.state page ∧ pointerFrame pointer = page ∧
      pointer % 4096 ≠ 0 := by
  obtain ⟨choice⟩ := (h.represents.withLock 1).exists_choice hsize hgranted
  obtain ⟨haligned, -, hword⟩ := choice.page_facts
  have hbounds := choice.node_bounds
  have hinside := choice.pointer_lt hclear
  rw [run_kmalloc_of_le h.lock_eq hsize, choice.run_kmallocSmall hsize (hinside.trans_le hword)]
    at hrun
  obtain ⟨rfl, -⟩ := Prod.mk.inj (Option.some.inj hrun)
  exact ⟨choice.page.base, ⟨choice.middle, choice.chooses⟩,
    pointerFrame_of_lt haligned (by omega) hinside, by omega⟩

/-- What `kfree` of a small block has done to its page. -/
theorem Reclaimed.relinked {memory : AllocatorState}
    (h : Reclaimed mapping state heap block memory next) (hheap : Represents mapping state heap)
    (hsize : block.size ≤ 4040) (haligned : block.pointer % 4096 ≠ 0) :
    Relinked state memory block (pointerFrame block.pointer) := by
  cases h with
  | @small front back page hpages hblock hcontext hnext htouches =>
    have hmem : page ∈ heap.pages := mem_of_eq_middle hpages
    obtain ⟨hbase, -, -⟩ := hheap.page_facts hmem
    have hwithin := page.blocks_within block hblock
    have hstop := hwithin.2
    simp only [Block.slot, Extent.stop] at hstop
    rw [pointerFrame_of_lt hbase (by omega) (by omega)]
    obtain ⟨merged, hmerged, hcovers⟩ := coalesce_covers (freedNode block)
      (nodesAfter block page.nodes) (nodesBefore block page.nodes)
    refine ⟨⟨_, hheap.chain, List.mem_map_of_mem hmem⟩,
      ⟨_, hnext.nodes.path, merged.address, List.mem_map_of_mem hmerged, ?_⟩,
      fun x hx ↦ htouches.outside (page.block_within hblock) hx, hcontext⟩
    rw [hnext.nodes.lengths merged hmerged, (hheap.pages page hmem).words block hblock]
    exact hcovers
  | large hblock => exact absurd (hheap.large block hblock).size_gt (not_lt.mpr hsize)

theorem Booted.findable {hhdmOffset : ℕ} (h : Booted hhdmOffset config) :
    Findable h.mapping config ⟨[], ∅⟩ where
  toTracks := h.tracks
  not_aligned := by simp [h.live_eq]

/-- A request whose frames are granted is answered by a pointer that leads to its page. -/
theorem Findable.kmalloc (h : Findable mapping config heap)
    (hcount : 4040 < size → 0 < frameCounts size)
    (hgranted : Granted size config.state)
    (hclear : size = 0 → ¬ TightFit config.state) {memory : AllocatorState}
    (hrun : run exec (Kernel.kmalloc mapping.hhdmOffset size) config.state =
      some (pointer, memory)) {final : HeapConfig}
    (hfinal : final = ⟨memory, if pointer = 0 then config.live
      else givenBlock size pointer memory :: config.live, config.owned⟩) :
    FindsPage mapping.hhdmOffset ⟨config, .kmalloc size pointer, final⟩ ∧
      ∃ next, Findable mapping final next := by
  have hend : 0 < size ∨ mapping.EndsBefore ∨ ¬ TightFit config.state := by
    rcases Nat.eq_zero_or_pos size with hzero | hpos
    · exact Or.inr (Or.inr (hclear hzero))
    · exact Or.inl hpos
  obtain ⟨hne, next, -, hnext⟩ := h.toTracks.kmalloc hend hcount hgranted hrun
  refine ⟨fun hsize _ ↦ ?_, next, ?_⟩
  · obtain ⟨page, hchooses, hframe, -⟩ := h.toTracks.kmalloc_finds hsize hgranted hclear hrun
    exact ⟨page, hchooses, hframe⟩
  · rw [hfinal, if_neg hne]
    refine ⟨hnext, List.forall_mem_cons.mpr ⟨?_, h.not_aligned⟩⟩
    rcases le_or_gt size 4040 with hsmall | hlarge
    · obtain ⟨page, -, -, hinside⟩ := h.toTracks.kmalloc_finds hsmall hgranted hclear hrun
      exact hinside
    · refine hnext.represents.pointer_not_aligned ((hnext.live_iff _).mp List.mem_cons_self) ?_
      exact (by norm_num : 0 < 4040).trans hlarge

/-- A call that keeps pages found keeps the heap findable. -/
theorem Findable.step (h : Findable mapping config heap) (hoffset : mapping.hhdmOffset < 2 ^ 64)
    (hstep : HeapStep mapping.hhdmOffset config event after)
    (hkeeps : KeepsPages mapping.hhdmOffset ⟨config, event, after⟩) :
    FindsPage mapping.hhdmOffset ⟨config, event, after⟩ ∧
      ∃ next, Findable mapping after next := by
  cases hstep with
  | @kmalloc size pointer memory hrun =>
    obtain ⟨hcount, hanswer, hclear⟩ := hkeeps
    by_cases hgranted : Granted size config.state
    · exact h.kmalloc hcount hgranted hclear hrun rfl
    · obtain ⟨hsize, hfit⟩ := hanswer.resolve_left hgranted
      rw [h.represents.kmalloc_refused h.lock_eq hoffset hsize hgranted hfit] at hrun
      obtain ⟨rfl, rfl⟩ := Prod.mk.inj (Option.some.inj hrun)
      exact ⟨fun _ hne ↦ absurd rfl hne, heap, h⟩
  | @kfree block ok memory hlive hrun =>
    have haligned := h.not_aligned block hlive
    obtain ⟨hok, next, -, hreclaimed, hnext⟩ :=
      h.toTracks.kfree_reclaimed hlive haligned hkeeps hrun
    refine ⟨fun hsize ↦ ⟨hok, hreclaimed.relinked h.represents hsize haligned⟩, next, hnext, ?_⟩
    exact fun other hother ↦ h.not_aligned other (List.mem_of_mem_erase hother)
  | write hlive hroom => exact ⟨trivial, heap, h.toTracks.write hlive hroom, h.not_aligned⟩
  | allocateFrame hrun => exact hkeeps.elim
  | freeFrame howned hrun => exact hkeeps.elim

/-- In a run without an empty request that meets a tight fit, every pointer leads to its page. -/
theorem pages_found {hhdmOffset : ℕ} {start final : HeapConfig}
    {taken : List (Taken HeapConfig HeapEvent)} (hboot : Booted hhdmOffset start)
    (hoffset : hhdmOffset < 2 ^ 64) (hrun : Run (HeapStep hhdmOffset) start taken final)
    (hkeeps : ∀ t ∈ taken, KeepsPages hhdmOffset t) : ∀ t ∈ taken, FindsPage hhdmOffset t := by
  intro t ht
  obtain ⟨earlier, hearlier, hstep, hsubset⟩ := hrun.of_mem ht
  obtain ⟨heap, hheap⟩ : ∃ heap, Findable hboot.mapping t.before heap :=
    hearlier.invariant (fun config ↦ ∃ heap, Findable hboot.mapping config heap)
      (KeepsPages hhdmOffset) ⟨_, hboot.findable⟩
      (fun before event after hbefore hstep hcondition ↦ by
        obtain ⟨heap, hheap⟩ := hbefore
        exact (hheap.step hoffset hstep hcondition).2)
      fun prior hprior ↦ hkeeps prior (hsubset prior hprior)
  exact (hheap.step hoffset hstep (hkeeps t ht)).1

theorem pages_found_reused : ∃ taken final, Reused taken final ∧
    ∀ t ∈ taken, FindsPage 0 t := by
  obtain ⟨taken, final, hreused⟩ := exists_reused
  refine ⟨taken, final, hreused, pages_found booted_bootedHeap (by norm_num) hreused.run ?_⟩
  rintro ⟨before, event, after⟩ ht
  have hserved := hreused.served _ ht
  cases event with
  | kmalloc size pointer =>
    have hsize : size ≤ 64 := hserved.2.1
    refine ⟨fun hlarge ↦ absurd hlarge (by omega), Or.inl hserved.2.2, fun hzero ↦ ?_⟩
    exact absurd hzero (Nat.ne_of_gt hserved.1)
  | kfree block ok =>
    have hsize := (hreused.aligned _ ht block ok rfl).2
    exact fun hlarge ↦ absurd hlarge (by omega)
  | write => trivial
  | allocateFrame => exact hserved
  | freeFrame => exact hserved

/-- A new page after its first block, with a node behind the block. -/
theorem Page.carve_fresh {base : ℕ} (hfit : (Page.fresh base).Fit [] ⟨base + 32, 4048⟩ [] size)
    (hroom : size + 24 ≤ 4048) :
    ((Page.fresh base).carve [] ⟨base + 32, 4048⟩ [] size hfit).nodes =
        [⟨base + 56 + size, 4024 - size⟩] ∧
      ((Page.fresh base).carve [] ⟨base + 32, 4048⟩ [] size hfit).largest = 4024 - size := by
  have hrest : carvedRest ⟨base + 32, 4048⟩ size = [⟨base + 56 + size, 4024 - size⟩] := by
    have hremaining : remaining ⟨base + 32, 4048⟩ size = 4040 - size := by
      change 4048 - (size + 8) = 4040 - size
      omega
    have haddress : base + 32 + 24 + size = base + 56 + size := by omega
    have hlength : 4040 - size - 16 = 4024 - size := by omega
    rw [carvedRest, hremaining, if_neg (by omega), haddress, hlength]
  simp only [carve, hrest, List.nil_append, List.append_nil, maxLength_singleton, and_self]

/-- After a request of 4016 bytes, an empty request is answered by the frame behind its page. -/
theorem page_not_found : ∃ taken final, Run (HeapStep 0) bootedHeap taken final ∧
    ∃ t ∈ taken, (∃ pointer, t.label = .kmalloc 0 pointer) ∧ ¬ FindsPage 0 t := by
  obtain ⟨first, middle, base, hfit, hstep, htracks⟩ :=
    exists_firstPage_of_le (show 0 < 4016 by norm_num) (by norm_num)
  obtain ⟨hnodes, hlargest⟩ := Page.carve_fresh hfit (by norm_num)
  have hbase : ((Page.fresh base).carve [] ⟨base + 32, 4048⟩ [] 4016 hfit).base = base := rfl
  generalize (Page.fresh base).carve [] ⟨base + 32, 4048⟩ [] 4016 hfit = page at *
  have hgranted := @granted_of_largest _ _ 0 _ _ htracks.represents (List.mem_singleton_self page)
    (by norm_num) (by omega)
  obtain ⟨choice⟩ := (htracks.represents.withLock 1).exists_choice (Nat.zero_le _) hgranted
  obtain ⟨hchosen, hnode⟩ := choice.single hnodes (by omega)
  have hend := choice.represents.page_end bootedHeap_end_lt choice.mem
  have haligned := choice.page_facts.1
  have haddress : choice.node.address = choice.page.base + 4072 := by
    rw [hnode, hchosen, hbase]
  have hrun := choice.run_kmallocSmall (Nat.zero_le _) (by omega)
  rw [← run_kmalloc_of_le htracks.lock_eq (Nat.zero_le _)] at hrun
  refine ⟨_, _, (Run.nil.snoc _ hstep).snoc _ (HeapStep.kmalloc hrun), _,
    List.mem_append_right _ (List.mem_singleton_self _), ⟨_, rfl⟩, fun hfinds ↦ ?_⟩
  obtain ⟨found, ⟨memory, hfound⟩, hframe⟩ := hfinds (Nat.zero_le _) (Nat.succ_ne_zero _)
  obtain ⟨rfl, -⟩ := Prod.mk.inj (Option.some.inj (choice.chooses.symm.trans hfound))
  rw [pointerFrame] at hframe
  omega

end Recovery

end SideHOS.Heap
