import SideHOS.Heap.Callers

/-!
# Heap isolation

Over every run of `kmalloc` and `kfree` whose frame requests are granted, the memory of a live
block belongs to its owner alone: it lies in frames taken from the table, and apart from every
other block's memory, from the allocator's headers, from the free nodes with their bytes, from
the size words and from the free frames.
-/

namespace SideHOS.Heap

open Kernel Linked Machine Machine.Word64 Machine.ByteMemory Sharing Sharing.Program Transition

/-- Every live block's memory is its own. -/
structure Isolated (hhdmOffset : ℕ) (usable : Multiset ℕ) (config : HeapConfig) : Prop where
  in_frames : ∀ block ∈ config.live, ∃ frame count,
    strided 4096 frame count ≤ usable ∧
      Disjoint (strided 4096 frame count) (Frames.free config.freelist) ∧
      block.payload.Within ⟨frame + hhdmOffset, 4096 * count⟩ ∧ (block.size ≤ 4040 → count = 1)
  payloads : config.live.Pairwise fun first second ↦ first.payload.Apart second.payload
  pages : ∃ pages, Chain 0 (pageNext config.state.bytes) config.state.context.heapPages pages ∧
    ∀ page ∈ pages, (∀ block ∈ config.live, block.payload.Apart ⟨page, 32⟩) ∧
      ∃ nodes, Chain 0 (nodeNext config.state.bytes) (load64 config.state.bytes page) nodes ∧
        ∀ node ∈ nodes, ∀ block ∈ config.live,
          block.payload.Apart ⟨node, 16 + load64 config.state.bytes node⟩
  largeHeaders : ∀ block ∈ config.live, ∀ other ∈ config.live, 4040 < other.size →
    block.payload.Apart ⟨other.pointer - 40, 32⟩
  words : ∀ block ∈ config.live, ∀ other ∈ config.live, block.payload.Apart other.header
  free : ∀ block ∈ config.live, ∀ frame ∈ Frames.free config.freelist,
    block.payload.Apart ⟨frame + hhdmOffset, 4096⟩

section Isolated

variable {mapping : Mapping} {config : HeapConfig} {heap : Layout} {block other : Block}
  {maximum : ℕ}

theorem Tracks.pointer_ge (h : Tracks mapping config heap) (hlive : block ∈ config.live) :
    8 ≤ block.pointer := by
  rcases (h.live_iff block).mp hlive with hlarge | ⟨page, -, hblock⟩
  · have hpointer := (h.represents.large block hlarge).pointer_ge
    omega
  · have hpointer := page.blocks_within block hblock
    omega

/-- The size word covers what was requested. -/
theorem Serves.size_le_word (h : Serves mapping maximum config heap)
    (hmaximum : maximum + 4135 < 2 ^ 64) (hlive : block ∈ config.live) :
    block.size ≤ block.word := by
  rcases (h.live_iff block).mp hlive with hlarge | ⟨page, -, hblock⟩
  · have hsize := (h.sizes block hlive).2
    have hbytes : block.size + 40 ≤ 4096 * frameCounts block.size :=
      (frameCounts_bounds (by omega)).2
    have hword := (h.represents.large block hlarge).word_eq
    omega
  · exact page.size_le block hblock

/-- The payload of a block fits into its cell. -/
theorem Serves.payload_within (h : Serves mapping maximum config heap)
    (hmaximum : maximum + 4135 < 2 ^ 64) (hlive : block ∈ config.live) :
    block.payload.Within block.cell := by
  have hle := h.size_le_word hmaximum hlive
  have hpointer := h.pointer_ge hlive
  simp only [Block.payload, Block.cell, Extent.Within, Extent.stop]
  omega

/-- The payload of a block ends in the address space. -/
theorem Serves.payload_stop_le (h : Serves mapping maximum config heap)
    (hmaximum : maximum + 4135 < 2 ^ 64) (hlive : block ∈ config.live) :
    block.payload.stop ≤ 2 ^ 64 := by
  have hle := h.size_le_word hmaximum hlive
  simp only [Block.payload, Extent.stop]
  rcases (h.live_iff block).mp hlive with hlarge | ⟨page, hpage, hblock⟩
  · have hcount := (h.represents.large block hlarge).count_pos
    have hpointer := (h.represents.large block hlarge).pointer_ge
    have hword := (h.represents.large block hlarge).word_eq
    have hend := (h.represents.large_facts hlarge).2.2
    omega
  · have hend := (h.represents.page_facts hpage).2.2
    have hwithin := page.blocks_within block hblock
    simp only [Block.slot, Extent.stop] at hwithin
    omega

/-- The frames of a live block are usable and taken. -/
theorem Serves.in_frames (h : Serves mapping maximum config heap) (hlive : block ∈ config.live) :
    ∃ frame count, strided 4096 frame count ≤ mapping.frames ∧
      Disjoint (strided 4096 frame count) (Frames.free config.freelist) ∧
      block.cell.Within ⟨frame + mapping.hhdmOffset, 4096 * count⟩ ∧
      (block.size ≤ 4040 → count = 1) := by
  have hinjective := add_left_injective mapping.hhdmOffset
  have htaken {frame count : ℕ} (hle : mapped mapping.hhdmOffset (strided 4096 frame count) ≤
      heap.frames) : strided 4096 frame count ≤ mapping.frames ∧
        Disjoint (strided 4096 frame count) (Frames.free config.freelist) := by
    constructor
    · rw [← Multiset.map_le_map_iff hinjective]
      refine hle.trans ?_
      change heap.frames ≤ mapped mapping.hhdmOffset mapping.frames
      rw [← h.represents.frames_eq]
      exact Multiset.le_add_left _ _
    · rw [Multiset.disjoint_left]
      intro frame hframe hfree
      exact Multiset.disjoint_left.mp (Multiset.nodup_add.mp h.represents.nodup).2.2
        (mem_mapped.mpr ⟨frame, hfree, rfl⟩)
        (Multiset.mem_of_le hle (mem_mapped.mpr ⟨frame, hframe, rfl⟩))
  rcases (h.live_iff block).mp hlive with hlarge | ⟨page, hpage, hblock⟩
  · obtain ⟨frame, hframe, hframes⟩ := h.represents.large_physical hlarge
    obtain ⟨husable, hdisjoint⟩ := htaken (hframes.trans_le (Layout.large_le hlarge))
    refine ⟨frame, _, husable, hdisjoint, ?_, fun hsmall ↦
      absurd (h.represents.large block hlarge).size_gt (not_lt.mpr hsmall)⟩
    rw [← hframe]
    exact (h.represents.large block hlarge).cell_within
  · have hmem : page.base ∈ mapped mapping.hhdmOffset mapping.frames := by
      rw [← h.represents.frames_eq]
      exact Multiset.mem_add.mpr (Or.inr (Layout.base_mem hpage))
    obtain ⟨frame, -, hframe⟩ := mem_mapped.mp hmem
    have hle : mapped mapping.hhdmOffset (strided 4096 frame 1) ≤ heap.frames := by
      rw [mapped_strided, hframe]
      exact strided_le_of_mem (Layout.base_mem hpage)
    obtain ⟨husable, hdisjoint⟩ := htaken hle
    refine ⟨frame, 1, husable, hdisjoint, ?_, fun _ ↦ rfl⟩
    rw [hframe]
    exact Page.cell_within hblock

theorem Serves.payloads_apart (h : Serves mapping maximum config heap)
    (hmaximum : maximum + 4135 < 2 ^ 64) (hblock : block ∈ config.live)
    (hother : other ∈ config.live) (hne : block ≠ other) :
    block.payload.Apart other.payload :=
  ((h.represents.cells_apart ((h.live_iff block).mp hblock) ((h.live_iff other).mp hother)
    hne).mono_left (h.payload_within hmaximum hblock)).mono_right (h.payload_within hmaximum hother)

/-- A served configuration isolates its blocks. -/
theorem Serves.isolated (h : Serves mapping maximum config heap)
    (hmaximum : maximum + 4135 < 2 ^ 64) :
    Isolated mapping.hhdmOffset mapping.frames config where
  in_frames block hblock := by
    obtain ⟨frame, count, husable, hdisjoint, hwithin, hcount⟩ := h.in_frames hblock
    exact ⟨frame, count, husable, hdisjoint, (h.payload_within hmaximum hblock).trans hwithin,
      hcount⟩
  payloads := h.nodup.pairwise_of_forall_ne fun first hfirst second hsecond hne ↦
    h.payloads_apart hmaximum hfirst hsecond hne
  pages := by
    refine ⟨_, h.represents.chain, fun base hbase ↦ ?_⟩
    obtain ⟨page, hpage, rfl⟩ := List.mem_map.mp hbase
    have hnodes := (h.represents.pages page hpage).nodes
    refine ⟨fun block hblock ↦ ?_, _, hnodes.path, fun address haddress block hblock ↦ ?_⟩
    · exact (h.represents.cell_apart_header ((h.live_iff block).mp hblock) hpage).mono_left
        (h.payload_within hmaximum hblock)
    · obtain ⟨node, hnode, rfl⟩ := List.mem_map.mp haddress
      rw [hnodes.lengths node hnode]
      exact (h.represents.cell_apart_node ((h.live_iff block).mp hblock) hpage hnode).mono_left
        (h.payload_within hmaximum hblock)
  largeHeaders block hblock other hother hsize :=
    (h.represents.cell_apart_largeHeader ((h.live_iff block).mp hblock)
      (h.represents.mem_large_iff.mpr ⟨(h.live_iff other).mp hother, hsize⟩)).mono_left
        (h.payload_within hmaximum hblock)
  words block hblock other hother := by
    by_cases heq : block = other
    · subst heq
      refine Or.inr ?_
      have hpointer := h.pointer_ge hblock
      simp only [Block.payload, Block.header, Extent.stop]
      omega
    · have hheader : other.header.Within other.cell := by
        simp only [Block.header, Block.cell, Extent.Within, Extent.stop]
        omega
      exact ((h.represents.cells_apart ((h.live_iff block).mp hblock)
        ((h.live_iff other).mp hother) heq).mono_left
          (h.payload_within hmaximum hblock)).mono_right hheader
  free block hblock frame hframe :=
    (h.represents.cell_apart_free ((h.live_iff block).mp hblock) one_pos
      (strided_le_of_mem hframe)).mono_left (h.payload_within hmaximum hblock)

/-- Every state of a run in which frames are granted and the table keeps to 127 entries is the
state of a served heap. -/
theorem serves_of_run {hhdmOffset : ℕ} {start final : HeapConfig}
    {taken : List (Taken HeapConfig HeapEvent)} (hboot : Booted hhdmOffset start)
    (hmaximum : maximum + 4135 < 2 ^ 64)
    (hentries : start.freelist.cursor ≤ 127) (hrun : Run (HeapStep hhdmOffset) start taken final)
    (hserved : ∀ t ∈ taken, Served maximum t)
    (hcursor : ∀ t ∈ taken, t.after.freelist.cursor ≤ 127) :
    (∃ heap, Serves hboot.mapping maximum final heap) ∧ final.freelist.cursor ≤ 127 :=
  hrun.invariant
    (fun config ↦ (∃ heap, Serves hboot.mapping maximum config heap) ∧
      config.freelist.cursor ≤ 127)
    (fun t ↦ Served maximum t ∧ t.after.freelist.cursor ≤ 127)
    ⟨⟨_, hboot.serves _⟩, hentries⟩
    (fun before event after hbefore hstep hcondition ↦ by
      obtain ⟨⟨heap, hheap⟩, hle⟩ := hbefore
      obtain ⟨next, -, hnext⟩ := hheap.step hmaximum (fun _ ↦ by omega) hstep hcondition.1
      exact ⟨⟨next, hnext⟩, hcondition.2⟩)
    (fun t ht ↦ ⟨hserved t ht, hcursor t ht⟩)

/-- Heap isolation, in every state of every run. -/
theorem heap_isolation {hhdmOffset : ℕ} {start final : HeapConfig}
    {taken : List (Taken HeapConfig HeapEvent)} (hboot : Booted hhdmOffset start)
    (hentries : start.freelist.cursor ≤ 127) (hrun : Run (HeapStep hhdmOffset) start taken final)
    (hserved : ∀ t ∈ taken, Served (2 ^ 63) t)
    (hcursor : ∀ t ∈ taken, t.after.freelist.cursor ≤ 127) :
    Isolated hhdmOffset (Frames.free start.freelist) final := by
  obtain ⟨⟨heap, hheap⟩, -⟩ := serves_of_run hboot (by norm_num) hentries hrun hserved hcursor
  exact hheap.isolated (by norm_num)

theorem heap_isolation_reused : ∃ taken final, Reused taken final ∧
    Isolated 0 (Frames.free bootedHeap.freelist) final := by
  obtain ⟨taken, final, hreused⟩ := exists_reused
  exact ⟨taken, final, hreused, heap_isolation booted_bootedHeap (by decide) hreused.run
    (fun t ht ↦ (hreused.served t ht).mono (by norm_num)) hreused.cursor⟩

end Isolated

end SideHOS.Heap
