import SideHOS.Heap.Requests
import SideHOS.Heap.Reuse
import SideHOS.Tasks.Launch

/-!
# Records that are used again

`kmalloc` gives a task a record and a stack.  A record that was freed is a free node of its page,
and what its owner left there is still in the next record that is carved from the node.
-/

namespace SideHOS.Tasks.Recycled

open Heap Kernel Kernel.Context Machine Machine.ByteMemory Sharing.Program Switch Transition

/-- The states which the heap reaches from boot by calls that keep it in order. -/
def Reached (hhdmOffset : ℕ) (config : HeapConfig) : Prop :=
  hhdmOffset < 2 ^ 64 ∧ ∃ (start : HeapConfig) (taken : List (Taken HeapConfig HeapEvent)),
    Booted hhdmOffset start ∧
      (∀ frame ∈ Frames.free start.freelist, frame + hhdmOffset + 4096 < 2 ^ 64) ∧
      Run (HeapStep hhdmOffset) start taken config ∧ ∀ t ∈ taken, KeepsHeap hhdmOffset t

/-- A record at `t`, carved in the state `middle`, and its stack. -/
structure Made (hhdmOffset : ℕ) (state : AllocatorState) (t : ℕ) (middle : AllocatorState)
    (stack : ℕ) (after : AllocatorState) : Prop where
  record : run exec (kmalloc hhdmOffset taskSize) state = some (t, middle)
  ne_zero : t ≠ 0
  record_le : t + taskSize ≤ 2 ^ 64
  found : Found hhdmOffset { state with memoryLock := 1 } taskSize t middle
  sound : Frames.Sound middle.context.freelist
  lock_eq : middle.memoryLock = 0
  stack_eq : run exec (kmalloc hhdmOffset 4096) middle = some (stack, after)
  stack_lt : stack + 4096 < 2 ^ 64
  kept : ∀ x, (contextExtent t).Holds x → after.bytes x = middle.bytes x
  apart : Extent.Apart (contextExtent t) (preparedWords stack)

/-- A heap in order, between two calls. -/
structure InOrder (hhdmOffset : ℕ) (state : AllocatorState) : Prop where
  offset_lt : hhdmOffset < 2 ^ 64
  lock_eq : state.memoryLock = 0
  represents : ∃ (mapping : Mapping) (heap : Layout), mapping.hhdmOffset = hhdmOffset ∧
    Represents mapping state heap

section Recycled

variable {Entry : Type} {text : Text Entry} {entry : Label Entry} {mapping : Mapping}
  {state first second middle after : AllocatorState} {heap : Layout} {block : Block}
  {hhdmOffset t stack : ℕ}

/-- A live block lies in the direct map behind frame 0 and the headers of the frame after it. -/
theorem cell_ge (h : Represents mapping state heap) (hlive : heap.Live block) :
    mapping.hhdmOffset + 4096 + 32 ≤ block.cell.start ∧ mapping.hhdmOffset + 8192 ≤ 2 ^ 64 := by
  have hframe {base : ℕ} (hbase : base ∈ heap.frames) :
      mapping.hhdmOffset + 4096 ≤ base ∧ base + 4096 ≤ 2 ^ 64 := by
    have hmem : base ∈ mapped mapping.hhdmOffset mapping.frames := by
      rw [← h.frames_eq]
      exact Multiset.mem_add.mpr (Or.inr hbase)
    obtain ⟨frame, hframe, rfl⟩ := mem_mapped.mp hmem
    have haligned := mapping.frame_aligned frame hframe
    have hne := mapping.frame_ne_zero frame hframe
    have hend := mapping.end_le frame hframe
    omega
  simp only [Block.cell]
  rcases hlive with hlarge | ⟨page, hpage, hblock⟩
  · have hfacts := h.large block hlarge
    have hpointer := hfacts.pointer_ge
    have hbase := hframe (Multiset.mem_of_le (Layout.large_le hlarge)
      (mem_strided.mpr ⟨0, hfacts.count_pos, rfl⟩))
    omega
  · have hbase := hframe (Layout.base_mem hpage)
    have hwithin := page.blocks_within block hblock
    omega

/-- `task_init` gets its stack from frames of its own, or an address behind frame 0 when there are
none; a live block is apart from the prepared words and keeps its bytes. -/
theorem kmalloc_stack (h : Represents mapping state heap) (hlock : state.memoryLock = 0)
    (hlive : heap.Live block) :
    ∃ stack after, run exec (kmalloc mapping.hhdmOffset 4096) state = some (stack, after) ∧
      (∀ x, block.cell.Holds x → after.bytes x = state.bytes x) ∧ stack + 4096 < 2 ^ 64 ∧
      Extent.Apart block.cell (preparedWords stack) := by
  obtain ⟨hcell, hend⟩ := cell_ge h hlive
  have hcount : frameCounts 4096 = 2 := frameCounts_of_lt (by norm_num)
  have hpos : 0 < frameCounts 4096 := by
    rw [hcount]
    exact two_pos
  by_cases hserved : ∃ index < Frames.scanLimit state.context.freelist,
      frameCounts 4096 ≤ (state.context.freelist.segments index).length
  · obtain ⟨index, hindex, hlength⟩ := hserved
    obtain ⟨stack, after, next, hrun, hgiven⟩ := h.kmalloc_given hlock (Or.inl (by norm_num))
      (fun _ ↦ hpos) (granted_of_affords hpos ⟨index, hindex, hlength⟩)
    have hlocked := h.withLock 1
    refine ⟨stack, after, hrun, fun x hx ↦ hgiven.untouched hlocked hlive hx, ?_⟩
    cases hgiven with
    | small hsize => exact absurd hsize (by norm_num)
    | @large middle frame hsize hcount' hallocated hframe hbytes hpages =>
      have hfree := (hlocked.taken_facts hcount' hallocated hframe).1
      have hbound := (hlocked.free_facts hcount' hfree).2
      have hapart := hlocked.cell_apart_free hlive hcount' hfree
      rw [hcount] at hbound hapart
      have hlow := le_stackTop (frame + mapping.hhdmOffset + 40)
      have hhigh := stackTop_le (frame + mapping.hhdmOffset + 40)
      refine ⟨by omega, hapart.mono_right ?_⟩
      simp only [Extent.Within, Extent.stop]
      omega
  · push Not at hserved
    have haligned := mapping.offset_aligned
    refine ⟨_, state, h.kmalloc_unserved hlock (by omega) (by norm_num) hpos hserved,
      fun x _ ↦ rfl, by omega, Or.inr ?_⟩
    simp only [Extent.stop, stackTop]
    omega

/-- The context of a record lies in the cell of its block. -/
theorem record_within (h : Represents mapping state heap) (hlive : heap.Live block)
    (hsize : block.size = taskSize) :
    Extent.Within (contextExtent block.pointer) block.cell ∧
      block.pointer + taskSize ≤ 2 ^ 64 := by
  rcases hlive with hlarge | ⟨page, hpage, hblock⟩
  · have hgt := (h.large block hlarge).size_gt
    rw [hsize] at hgt
    exact absurd hgt (by decide)
  · have hword := (h.page_facts hpage).2.2
    have hwithin := page.blocks_within block hblock
    have hle := page.size_le block hblock
    rw [hsize] at hle
    simp only [Block.slot, Block.cell, Extent.Within, Extent.stop, taskSize, taskContext,
      contextSize] at hwithin hle ⊢
    omega

/-- A granted record and its stack. -/
theorem exists_made (h : Represents mapping state heap) (hlock : state.memoryLock = 0)
    (hgranted : Granted taskSize state) :
    ∃ t middle stack after, Made mapping.hhdmOffset state t middle stack after := by
  obtain ⟨t, middle, next, hrecord, hgiven, hfound⟩ :=
    h.kmalloc_found hlock (by decide) (by decide) hgranted
  have hprovided := hgiven.provided (h.withLock 1)
  have hlive : next.Live (givenBlock taskSize t middle) := (hprovided.live_iff _).mpr (Or.inl rfl)
  obtain ⟨stack, after, hstack, hkept, hlt, hapart⟩ :=
    kmalloc_stack hprovided.represents hprovided.lock_eq hlive
  obtain ⟨hcontext, hend⟩ := record_within hprovided.represents hlive rfl
  exact ⟨t, middle, stack, after, hrecord, hprovided.pointer_ne, hend, hfound,
    hprovided.represents.sound, hprovided.lock_eq, hstack, hlt,
    fun x hx ↦ hkept x (hcontext.holds hx), hapart.mono_left hcontext⟩

/-- Words of the context other than the stack pointer hold what `kmalloc` left there. -/
theorem Made.load64_context {offset : ℕ} (h : Made hhdmOffset state t middle stack after)
    (hlow : 24 ≤ offset) (hhigh : offset + 8 ≤ 160)
    (hne : offset + 8 ≤ field .rsp ∨ field .rsp + 8 ≤ offset) :
    load64 (taskInitStack text t stack entry after.bytes) (t + offset) =
      load64 middle.bytes (t + offset) := by
  have hapart := h.apart
  have hstack := le_stackTop stack
  have hkept : load64 after.bytes (t + offset) = load64 middle.bytes (t + offset) := by
    apply load64_of_agree h.kept
    simp only [Extent.Within, Extent.stop, taskContext, contextSize]
    omega
  simp only [Extent.Apart, Extent.stop, taskContext, contextSize] at hapart
  simp only [taskInitStack]
  rw [load64_store64_of_apart (by omega), load64_store64_of_apart (by omega),
    load64_store64_of_apart (by omega), load64_store64_of_apart (by omega),
    load64_store64_of_apart (by omega), load64_store64_of_apart (by omega),
    load64_store64_of_apart (by omega), hkept]

/-- The stack pointer in the context. -/
theorem load64_taskInitStack_rsp {before : Memory} (hbound : stack + 4096 < 2 ^ 64) :
    load64 (taskInitStack text t stack entry before) (t + field .rsp) = stackTop stack - 32 := by
  have hhigh := stackTop_le stack
  exact load64_store64_same (by omega)

theorem InOrder.sound (h : InOrder hhdmOffset state) : Frames.Sound state.context.freelist := by
  obtain ⟨-, -, mapping, heap, -, hheap⟩ := h
  exact hheap.sound

theorem InOrder.alike_symm (h : InOrder hhdmOffset first) (halike : Alike first second) :
    Alike second first := by
  obtain ⟨-, -, mapping, heap, -, hheap⟩ := h
  exact hheap.alike_symm halike

/-- A record that reuses a node is granted. -/
theorem InOrder.made_of_reuses (h : InOrder hhdmOffset state) {node : ℕ}
    (hreuses : Reuses state taskSize node) :
    ∃ t middle stack after, Made hhdmOffset state t middle stack after := by
  obtain ⟨-, hlock, mapping, heap, rfl, hheap⟩ := h
  obtain ⟨page, hpage, hlargest⟩ := hheap.reuses_room hreuses
  exact exists_made hheap hlock (granted_of_largest hheap hpage (by decide) hlargest)

theorem Reached.inOrder {config : HeapConfig} (h : Reached hhdmOffset config) :
    InOrder hhdmOffset config.state := by
  obtain ⟨hoffset, start, taken, hboot, hend, hrun, hkeeps⟩ := h
  obtain ⟨heap, hheap⟩ := tracks_of_run hboot hend hoffset hrun hkeeps
  exact ⟨hoffset, hheap.lock_eq, hboot.mapping, heap, rfl, hheap.represents⟩

/-- A table of one segment with four frames. -/
def fourEntries : FreeList where
  segments _ := ⟨4096, 4⟩
  cursor := 1

theorem sound_fourEntries : Frames.Sound fourEntries where
  cursor_le := by decide
  aligned _ _ _ := by norm_num [fourEntries]
  base_lt _ _ := by norm_num [fourEntries]
  end_le _ _ := by norm_num [fourEntries]
  disjoint first hfirst second hsecond hne := by
    have hone : fourEntries.cursor = 1 := rfl
    omega
  zero_not_mem := by decide

theorem fourEntries_end_lt : ∀ frame ∈ Frames.free fourEntries, frame + 0 + 4096 < 2 ^ 64 := by
  decide

/-- Four usable frames, memory full of one byte, and no caller. -/
def fourFrames (byte : UInt8) : HeapConfig where
  state := { bytes := fun _ ↦ byte, context := ⟨fourEntries, 0⟩, memoryLock := 0 }
  live := []
  owned := 0

theorem booted_fourFrames (byte : UInt8) : Booted 0 (fourFrames byte) where
  sound := sound_fourEntries
  offset_aligned := rfl
  end_le frame hframe := (fourEntries_end_lt frame hframe).le
  heapPages_eq := rfl
  lock_eq := rfl
  live_eq := rfl
  owned_eq := rfl

theorem granted_fourFrames (byte : UInt8) : Granted taskSize (fourFrames byte).state :=
  granted_of_affords (by decide) ⟨0, show 0 < Frames.scanLimit fourEntries by decide,
    show frameCounts taskSize ≤ 4 by decide⟩

theorem reached_fourFrames (byte : UInt8) : Reached 0 (fourFrames byte) :=
  ⟨by norm_num, _, _, booted_fourFrames byte, fourEntries_end_lt, Run.nil, nofun⟩

/-- The owner of the block writes a byte to it and frees it. -/
theorem exists_recycled {config : HeapConfig} {page : Page} {address : ℕ}
    (h : Tracks mapping config ⟨[page], ∅⟩) (hblock : block ∈ page.blocks) (hsize : 0 < block.size)
    (hroom : block.room.Holds address) (value : UInt8) :
    ∃ written final : HeapConfig,
      HeapStep mapping.hhdmOffset config (.write block address value) written ∧
      HeapStep mapping.hhdmOffset written (.kfree block true) final ∧
      Represents mapping final.state ⟨[page.release block hblock], ∅⟩ ∧
      final.state.context = config.state.context ∧
      Relinks page block (store8 config.state.bytes address value) final.state.bytes := by
  have hlive : Layout.Live ⟨[page], ∅⟩ block := Or.inr ⟨page, List.mem_singleton_self _, hblock⟩
  have hmem := (h.live_iff block).mpr hlive
  have haligned := h.represents.pointer_not_aligned hlive hsize
  have hwritten := (@Tracks.write _ _ _ _ _ value h hmem hroom).represents
  obtain ⟨bytes, hrun, hpageAt, hrelinks⟩ :=
    hwritten.run_kfree_small h.lock_eq (List.mem_singleton_self page) hblock haligned
  exact ⟨_, _, HeapStep.write hmem hroom, HeapStep.kfree hmem hrun,
    @Represents.release _ _ _ _ _ hwritten [] [] rfl hblock _ hpageAt hrelinks.touches 0, rfl,
    hrelinks⟩

/-- After boot a record is taken at `t`, its owner writes a value to one of its bytes, and it is
freed. -/
def Leaves (t offset : ℕ) (value : UInt8) (config : HeapConfig) : Prop :=
  ∃ taken, Run (HeapStep 0) (fourFrames 0) taken config ∧
    taken.map (fun call ↦ call.label) =
      [.kmalloc taskSize t, .write ⟨t, taskSize, taskSize⟩ (t + offset) value,
        .kfree ⟨t, taskSize, taskSize⟩ true]

/-- The first record after boot, 56 bytes into its page. -/
theorem exists_record : ∃ (middle : AllocatorState) (page : Page),
    HeapStep 0 (fourFrames 0) (.kmalloc taskSize (page.base + 56))
      ⟨middle, [⟨page.base + 56, 176, 176⟩], 0⟩ ∧
    Tracks (booted_fourFrames 0).mapping ⟨middle, [⟨page.base + 56, 176, 176⟩], 0⟩ ⟨[page], ∅⟩ ∧
    page.nodes = [⟨page.base + 232, 3848⟩] ∧ page.largest = 3848 ∧
    ⟨page.base + 56, 176, 176⟩ ∈ page.blocks := by
  obtain ⟨pointer, middle, next, -, hstep, hgiven, htracks⟩ :=
    (booted_fourFrames 0).tracks.exists_kmalloc_given (Or.inl (by decide))
      (fun hlarge ↦ absurd hlarge (by decide)) (granted_fourFrames 0)
  obtain ⟨base, hfit, rfl⟩ := hgiven.first (by decide)
  have hblock : ⟨base + 56, 176, 176⟩ ∈
      ((Page.fresh base).carve [] ⟨base + 32, 4048⟩ [] taskSize hfit).blocks := by
    simp [Page.carve, Page.fresh, carvedBlock, remaining, taskSize]
  have hgave := List.mem_singleton.mp
    ((htracks.live_iff _).mpr (Or.inr ⟨_, List.mem_singleton_self _, hblock⟩))
  obtain rfl : base + 56 = pointer := congrArg Block.pointer hgave
  rw [← hgave] at hstep htracks
  refine ⟨middle, (Page.fresh base).carve [] ⟨base + 32, 4048⟩ [] taskSize hfit, hstep, htracks, ?_,
    ?_, hblock⟩
  · simp [Page.carve, Page.fresh, carvedRest, remaining, taskSize]
  · simp [Page.carve, carvedRest, remaining, taskSize, maxLength]

/-- The page of the record after it was freed has one node again. -/
theorem release_nodes {page : Page} (hnodes : page.nodes = [⟨page.base + 232, 3848⟩])
    (hblock : ⟨page.base + 56, 176, 176⟩ ∈ page.blocks) :
    (page.release _ hblock).nodes = [⟨page.base + 32, 4040⟩] := by
  simp [Page.release, Page.releasedNodes, hnodes, freedNode, nodesBefore, nodesAfter, coalesce,
    mergeFrom, Mergeable, Node.merge, Node.extent, Extent.stop]

/-- The record is free again, and one of its bytes holds a value that its owner left. -/
structure Returned (mapping : Mapping) (middle : AllocatorState) (page : Page) (offset : ℕ)
    (value : UInt8) (final : HeapConfig) : Prop where
  leaves : Leaves (page.base + 56) offset value final
  reached : Reached 0 final
  represents : Represents mapping final.state ⟨[page], ∅⟩
  nodes : page.nodes = [⟨page.base + 32, 4040⟩]
  largest : page.largest = 3848
  context_eq : final.state.context = middle.context
  byte_eq : final.state.bytes (page.base + 56 + offset) = value
  kept : ∀ x, ¬ (Extent.mk page.base 8).Holds x → ¬ (Extent.mk (page.base + 32) 4056).Holds x →
    final.state.bytes x = middle.bytes x

section Returned

variable {page : Page} {offset i : ℕ} {value : UInt8} {final : HeapConfig}

theorem Returned.reuses (h : Returned mapping middle page offset value final) :
    Reuses final.state taskSize (page.base + 32) :=
  h.represents.reuses_single h.nodes (by rw [h.largest]; decide)
    (show taskSize + 8 ≤ 4040 by decide)

theorem Returned.granted (h : Returned mapping middle page offset value final) :
    Granted taskSize final.state :=
  granted_of_largest h.represents (List.mem_singleton_self page) (by decide)
    (by rw [h.largest]; decide)

/-- The lowest bit of the value is in the word that the byte belongs to. -/
theorem Returned.testBit_word (h : Returned mapping middle page (offset + i) value final)
    (hi : i < 8) : (load64 final.state.bytes (page.base + 56 + offset)).testBit (8 * i) =
      value.toNat.testBit 0 := by
  rw [testBit_load64 _ _ hi, add_assoc, h.byte_eq]

/-- A byte of the record is written, and the record freed. -/
theorem exists_returned (hoffset : offset < taskSize) :
    ∃ (mapping : Mapping) (middle : AllocatorState) (page : Page), mapping.hhdmOffset = 0 ∧
      ∀ value : UInt8, ∃ final : HeapConfig, Returned mapping middle page offset value final := by
  obtain ⟨middle, page, hstep, htracks, hnodes, hlargest, hblock⟩ := exists_record
  refine ⟨(booted_fourFrames 0).mapping, middle, page.release _ hblock, rfl, fun value ↦ ?_⟩
  unfold taskSize at hoffset
  have hroom : (Block.mk (page.base + 56) 176 176).room.Holds (page.base + 56 + offset) := by
    simp only [Block.room, Extent.Holds, Extent.stop]
    omega
  have hsmall : ¬ 4040 < (Block.mk (page.base + 56) 176 176).size := by norm_num
  have haligned := htracks.represents.pointer_not_aligned
    (Or.inr ⟨page, List.mem_singleton_self page, hblock⟩) (by norm_num)
  obtain ⟨written, final, hwrite, hfree, hrepresents, hcontext, hrelinks⟩ :=
    exists_recycled htracks hblock (by norm_num) hroom value
  have hheaders {x : ℕ} (hx : ¬ (Extent.mk (page.base + 232) 16).Holds x) :
      ∀ node ∈ page.nodes, ¬ node.header.Holds x := by
    rw [hnodes]
    exact List.forall_mem_singleton.mpr hx
  have hrun := ((Run.nil.snoc _ hstep).snoc _ hwrite).snoc _ hfree
  refine ⟨final, ⟨_, hrun, rfl⟩, ⟨by norm_num, _, _, booted_fourFrames 0, fourEntries_end_lt, hrun,
    ?_⟩, hrepresents, release_nodes hnodes hblock, hlargest, hcontext, ?_, fun x hhead hnode ↦ ?_⟩
  · simp only [List.forall_mem_append, List.forall_mem_singleton, List.nil_append, KeepsHeap,
      KeepsOwners]
    exact ⟨⟨⟨fun hlarge ↦ absurd hlarge (by decide), Or.inl (granted_fourFrames 0)⟩, trivial⟩,
      haligned, fun hlarge ↦ absurd hlarge hsmall⟩
  · rw [hrelinks _ ?_ (hheaders ?_) ?_]
    · exact Function.update_self ..
    all_goals
      simp only [freedNode, Node.header, Extent.Holds, Extent.stop, Page.release]
      omega
  · simp only [Extent.Holds, Extent.stop, Page.release] at hhead hnode
    rw [hrelinks x ?_ (hheaders ?_) ?_]
    · exact store8_of_ne (by omega)
    all_goals
      simp only [freedNode, Node.header, Extent.Holds, Extent.stop]
      omega

end Returned

end Recycled

end SideHOS.Tasks.Recycled
