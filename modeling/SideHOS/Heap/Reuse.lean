import SideHOS.Heap.Isolation

/-!
# What a new block holds

A small block comes either from a frame that was zeroed for it or from a free node, and then it
holds what was left there.  Which of the two, and which node, is a matter of the free lists alone,
so two heaps with the same metadata give blocks at the same address with different contents.
-/

namespace SideHOS.Heap

open Kernel Linked Machine Machine.Word64 Machine.ByteMemory Sharing Sharing.Program

/-- `kmalloc(size)` reuses this free node: the first that is long enough, in the first page whose
`largest` is large enough. -/
def Reuses (state : AllocatorState) (size node : ℕ) : Prop :=
  ∃ pages page nodes, Chain 0 (pageNext state.bytes) state.context.heapPages pages ∧
    pages.find? (fun page ↦ decide (size + 8 ≤ pageLargest state.bytes page)) = some page ∧
    Chain 0 (nodeNext state.bytes) (load64 state.bytes page) nodes ∧
    nodes.find? (fun node ↦ decide (size + 8 ≤ load64 state.bytes node)) = some node

/-- The free lists and the metadata of both heaps are the same: the table, the list of pages with
their `largest` and free lists, and the lengths of the free nodes. -/
structure Alike (first second : AllocatorState) : Prop where
  context_eq : second.context = first.context
  pages : ∀ pages, Chain 0 (pageNext first.bytes) first.context.heapPages pages →
    ∀ page ∈ pages, pageNext second.bytes page = pageNext first.bytes page ∧
      pageLargest second.bytes page = pageLargest first.bytes page ∧
      load64 second.bytes page = load64 first.bytes page
  nodes : ∀ pages, Chain 0 (pageNext first.bytes) first.context.heapPages pages →
    ∀ page ∈ pages, ∀ nodes, Chain 0 (nodeNext first.bytes) (load64 first.bytes page) nodes →
      ∀ node ∈ nodes, nodeNext second.bytes node = nodeNext first.bytes node ∧
        load64 second.bytes node = load64 first.bytes node

/-- Where `kmalloc` found a new block, and what the block holds: a free node's bytes as they were,
or the zeros of a new frame. -/
inductive Found (hhdmOffset : ℕ) (state : AllocatorState) (size : ℕ) :
    ℕ → AllocatorState → Prop
  | reused {node : ℕ} {after : AllocatorState} (hreuses : Reuses state size node)
      (hcontext : after.context = state.context)
      (hbytes : ∀ x, (Extent.mk (node + 24) size).Holds x → after.bytes x = state.bytes x) :
      Found hhdmOffset state size (node + 24) after
  | zeroed {pointer frame : ℕ} {middle after : AllocatorState}
      (hnone : ∀ node, ¬ Reuses state size node)
      (hrun : run exec (memoryAllocateFrame hhdmOffset) state = some (frame, middle))
      (hcontext : after.context = middle.context)
      (hbytes : ∀ x, (Extent.mk pointer size).Holds x → after.bytes x = 0) :
      Found hhdmOffset state size pointer after

section Reuse

variable {mapping other : Mapping} {state first second after middle : AllocatorState}
  {heap next : Layout} {page : Page} {bytes : Memory} {node : Node}
  {size address pointer x : ℕ}

/-- The free lists determine the node. -/
theorem Reuses.unique {again : ℕ} (h : Reuses state size address)
    (hother : Reuses state size again) : address = again := by
  obtain ⟨pages, page, nodes, hpages, hpage, hnodes, hnode⟩ := h
  obtain ⟨pages', page', nodes', hpages', hpage', hnodes', hnode'⟩ := hother
  obtain rfl := Chain.unique hpages hpages'
  obtain rfl := Option.some.inj (hpage.symm.trans hpage')
  obtain rfl := Chain.unique hnodes hnodes'
  exact Option.some.inj (hnode.symm.trans hnode')

theorem Reuses.alike (h : Reuses first size address) (halike : Alike first second) :
    Reuses second size address := by
  obtain ⟨pages, page, nodes, hpages, hpage, hnodes, hnode⟩ := h
  have hmem := List.mem_of_find?_eq_some hpage
  have hcells := halike.pages pages hpages
  have hlists := halike.nodes pages hpages page hmem nodes hnodes
  refine ⟨pages, page, nodes, ?_, ?_, ?_, ?_⟩
  · rw [halike.context_eq]
    exact hpages.congr fun cell hcell ↦ (hcells cell hcell).1
  · rw [← hpage]
    apply List.find?_congr
    intro cell hcell
    rw [(hcells cell hcell).2.1]
  · rw [(hcells page hmem).2.2]
    exact hnodes.congr fun cell hcell ↦ (hlists cell hcell).1
  · rw [← hnode]
    apply List.find?_congr
    intro cell hcell
    rw [(hlists cell hcell).2]

/-- The reused node is on the list of a page with room. -/
theorem Represents.reuses_room (h : Represents mapping state heap)
    (hreuses : Reuses state size address) : ∃ page ∈ heap.pages, size + 8 ≤ page.largest := by
  obtain ⟨pages, base, -, hpages, hpage, -⟩ := hreuses
  obtain rfl := Chain.unique hpages h.chain
  obtain ⟨page, hmem, rfl⟩ := List.mem_map.mp (List.mem_of_find?_eq_some hpage)
  have hlargest := List.find?_some hpage
  rw [h.pageLargest_eq hmem, decide_eq_true_eq] at hlargest
  exact ⟨page, hmem, hlargest⟩

/-- The first page with room and its first node with room are the reused ones. -/
theorem Represents.reuses (h : Represents mapping state heap) {front back : List Page}
    (hpages : heap.pages = front ++ page :: back) (hlargest : size + 8 ≤ page.largest)
    (hfront : ∀ other ∈ front, other.largest < size + 8) {before behind : List Node}
    (hfit : page.Fit before node behind size)
    (hbefore : ∀ other ∈ before, other.length < size + 8) : Reuses state size node.address := by
  have hmem : page ∈ heap.pages := mem_of_eq_middle hpages
  obtain ⟨hpage, hnode⟩ :=
    h.find_fit hpages hlargest hfront hfit.nodes_eq hfit.le_length hbefore
  exact ⟨_, page.base, _, h.chain, hpage, (h.pages page hmem).nodes.path, hnode⟩

/-- The only node of the only page is reused when both have room. -/
theorem Represents.reuses_single (h : Represents mapping state ⟨[page], ∅⟩)
    (hnodes : page.nodes = [node]) (hlargest : size + 8 ≤ page.largest)
    (hlength : size + 8 ≤ node.length) : Reuses state size node.address := by
  have hpages : [page] = [] ++ page :: [] := rfl
  have hfit : page.Fit [] node [] size := ⟨hnodes, hlength⟩
  exact h.reuses hpages hlargest nofun hfit nofun

/-- States that represent the same layout with the same table have equal metadata. -/
theorem Represents.alike (h : Represents mapping first heap)
    (hother : Represents other second heap) (hcontext : second.context = first.context) :
    Alike first second where
  context_eq := hcontext
  pages pages hpages base hbase := by
    obtain rfl := Chain.unique hpages h.chain
    have hchain := hother.chain
    rw [hcontext] at hchain
    obtain ⟨page, hmem, rfl⟩ := List.mem_map.mp hbase
    refine ⟨h.chain.next_eq hchain _ hbase, ?_, ?_⟩
    · rw [h.pageLargest_eq hmem, hother.pageLargest_eq hmem]
    · rw [(h.pages page hmem).nodes.head_eq, (hother.pages page hmem).nodes.head_eq]
  nodes pages hpages base hbase nodes hnodes address haddress := by
    obtain rfl := Chain.unique hpages h.chain
    obtain ⟨page, hmem, rfl⟩ := List.mem_map.mp hbase
    have hfirst := (h.pages page hmem).nodes
    have hsecond := (hother.pages page hmem).nodes
    obtain rfl := Chain.unique hnodes hfirst.path
    have hpath := hsecond.path
    rw [hsecond.head_eq, ← hfirst.head_eq] at hpath
    obtain ⟨node, hnode, rfl⟩ := List.mem_map.mp haddress
    refine ⟨hfirst.path.next_eq hpath _ haddress, ?_⟩
    rw [hfirst.lengths node hnode, hsecond.lengths node hnode]

theorem Represents.alike_symm (h : Represents mapping first heap) (halike : Alike first second) :
    Alike second first := by
  have hcells := halike.pages _ h.chain
  have hchain : Chain 0 (pageNext second.bytes) second.context.heapPages
      (heap.pages.map Page.base) := by
    rw [halike.context_eq]
    exact h.chain.congr fun cell hcell ↦ (hcells cell hcell).1
  refine ⟨halike.context_eq.symm, fun pages hpages base hbase ↦ ?_,
    fun pages hpages base hbase nodes hnodes address haddress ↦ ?_⟩
  · obtain rfl := Chain.unique hpages hchain
    obtain ⟨hnext, hlargest, hhead⟩ := hcells base hbase
    exact ⟨hnext.symm, hlargest.symm, hhead.symm⟩
  · obtain rfl := Chain.unique hpages hchain
    obtain ⟨page, hmem, rfl⟩ := List.mem_map.mp hbase
    have hpath := (h.pages page hmem).nodes.path
    have hlists := halike.nodes _ h.chain page.base hbase _ hpath
    rw [(hcells page.base hbase).2.2] at hnodes
    obtain rfl := Chain.unique hnodes (hpath.congr fun cell hcell ↦ (hlists cell hcell).1)
    exact ⟨(hlists address haddress).1.symm, (hlists address haddress).2.symm⟩

theorem Alike.withLock (h : Alike first second) (lock : ℕ) :
    Alike { first with memoryLock := lock } { second with memoryLock := lock } :=
  ⟨h.context_eq, h.pages, h.nodes⟩

/-- Carving leaves the payload of the new block as it was. -/
theorem carvedBytes_payload {front back : List Node} (hfit : page.Fit front node back size)
    (hx : (Extent.mk (node.address + 24) size).Holds x) :
    carvedBytes bytes page front node back size x = bytes x := by
  have hnode := page.ordered.within node hfit.mem
  have hlength := hfit.le_length
  simp only [Extent.Holds, Extent.stop] at hx
  have hhead : ¬ Extent.Holds ⟨page.base, 8⟩ x := by
    simp only [Extent.Holds, Extent.stop]
    omega
  have hfront : ∀ other ∈ front, ¬ other.header.Holds x := by
    intro other hother hholds
    have hapart := hfit.node_apart (Or.inl hother)
    simp only [Node.extent, Node.header, Extent.Apart, Extent.Holds, Extent.stop] at hapart hholds
    omega
  unfold carvedBytes cutBytes
  rw [store64_of_outside (by omega), linked_of_outside hhead hfront]
  split_ifs
  · rw [store64_of_outside (by omega), store64_of_outside (by omega)]
  · rw [store64_of_outside (by omega), store64_of_outside (by omega), store64_of_outside (by omega)]

/-- Behind the header of its node, a new page is zero. -/
theorem heapPageImage_zero {base heapPages : ℕ} (hword : base + 4096 ≤ 2 ^ 64)
    (hx : (Extent.mk (base + 48) 4048).Holds x) :
    Frames.heapPageImage bytes base heapPages x = 0 := by
  simp only [Extent.Holds, Extent.stop] at hx
  rw [heapPageImage_eq hword, store64_of_outside (by omega), store64_of_outside (by omega),
    store64_of_outside (by omega), store64_of_outside (by omega), store64_of_outside (by omega),
    fill_of_inside (by omega) (by omega)]

/-- A block from a page of the heap holds what its node held. -/
theorem Found.of_page {front back : List Page} {before behind : List Node}
    (h : Represents mapping state heap) (hpages : heap.pages = front ++ page :: back)
    (hlargest : size + 8 ≤ page.largest) (hfront : ∀ other ∈ front, other.largest < size + 8)
    (hfit : page.Fit before node behind size)
    (hbefore : ∀ other ∈ before, other.length < size + 8) :
    Found mapping.hhdmOffset state size (node.address + 24)
      { state with
        bytes := carvedBytes state.bytes page before node behind size
        memoryLock := 0 } :=
  Found.reused (h.reuses hpages hlargest hfront hfit hbefore) rfl
    fun _ hx ↦ carvedBytes_payload hfit hx

/-- A block from a new page is zero. -/
theorem Found.of_frame {frame base : ℕ} {before behind : List Node}
    (h : Represents mapping state heap) (hsmall : ∀ page ∈ heap.pages, page.largest < size + 8)
    (hrun : run exec (memoryAllocateFrame mapping.hhdmOffset) state = some (frame, middle))
    (hbytes : middle.bytes = Frames.heapPageImage state.bytes base state.context.heapPages)
    (hword : base + 4096 ≤ 2 ^ 64) (hfit : (Page.fresh base).Fit before node behind size) :
    Found mapping.hhdmOffset state size (node.address + 24)
      { middle with
        bytes := carvedBytes middle.bytes (Page.fresh base) before node behind size
        memoryLock := 0 } := by
  refine Found.zeroed (fun address hreuses ↦ ?_) hrun rfl fun x hx ↦ ?_
  · obtain ⟨page, hpage, hlargest⟩ := h.reuses_room hreuses
    exact absurd hlargest (not_le.mpr (hsmall page hpage))
  · have hlength := hfit.le_length
    obtain ⟨-, rfl, -⟩ := eq_of_singleton hfit.nodes_eq
    have hpayload : Extent.Within ⟨base + 32 + 24, size⟩ ⟨base + 48, 4048⟩ := by
      simp only [Extent.Within, Extent.stop]
      dsimp only at hlength
      omega
    rw [← heapPageImage_zero hword (hpayload.holds hx), ← hbytes]
    exact carvedBytes_payload hfit hx

/-- What a small `kmalloc` leaves in its block. -/
theorem Represents.kmallocSmall_found (h : Represents mapping state heap) (hpos : 0 < size)
    (hsize : size ≤ 4040) (hgranted : Granted size state) :
    ∃ pointer after next, run exec (Kernel.kmallocSmall mapping.hhdmOffset size) state =
        some (pointer, after) ∧ Given mapping state heap size pointer after next ∧
      Found mapping.hhdmOffset state size pointer after := by
  rw [Granted, if_neg (not_lt.mpr hsize)] at hgranted
  obtain ⟨pages, front, page, back, middle, hchoose, hprepared, hmiddle, hpages, hlargest,
    hfront⟩ := h.run_choosePage (by omega) hgranted
  have hmem : page ∈ pages := mem_of_eq_middle hpages
  obtain ⟨longest, hlongest, hle⟩ := page.largest_le (by omega)
  obtain ⟨before, node, behind, hfit, hbefore⟩ :=
    exists_fit ⟨longest, hlongest, hlargest.trans hle⟩
  have hword := (hmiddle.page_facts hmem).2.2
  have hnode := page.ordered.within node hfit.mem
  have hlength := hfit.le_length
  simp only [Node.extent, Extent.stop] at hnode
  have htotal : add size 8 = size + 8 := add_of_lt (by omega)
  refine ⟨_, _, _, ?_, Given.small hsize hprepared hmiddle hpages hlargest hfit, ?_⟩
  · unfold Kernel.kmallocSmall
    simp only [sizeofU64, htotal]
    rw [run_bind_of_eq hchoose,
      run_kmallocIn (hmiddle.pages page hmem) hword hfit hbefore (by omega)]
  · cases hprepared with
    | found => exact Found.of_page h hpages hlargest hfront hfit hbefore
    | @fresh frame _ hsmall hallocated hframe hbytes =>
      obtain rfl : page = Page.fresh (frame + mapping.hhdmOffset) := by
        rcases List.mem_cons.mp hmem with hfresh | hother
        · exact hfresh
        · exact absurd hlargest (not_le.mpr (hsmall page hother))
      rw [h.run_choosePage_of_small hsmall, Option.map_eq_some_iff] at hchoose
      obtain ⟨⟨taken, prepared⟩, hrun, heq⟩ := hchoose
      obtain ⟨-, rfl⟩ := Prod.mk.inj heq
      exact Found.of_frame h hsmall hrun hbytes hword hfit

/-- What `kmalloc` leaves in a small block. -/
theorem Represents.kmalloc_found (h : Represents mapping state heap) (hlock : state.memoryLock = 0)
    (hpos : 0 < size) (hsize : size ≤ 4040) (hgranted : Granted size state) :
    ∃ pointer after next, run exec (Kernel.kmalloc mapping.hhdmOffset size) state =
        some (pointer, after) ∧
      Given mapping { state with memoryLock := 1 } heap size pointer after next ∧
      Found mapping.hhdmOffset { state with memoryLock := 1 } size pointer after := by
  rw [run_kmalloc_of_le hlock hsize]
  exact (h.withLock 1).kmallocSmall_found hpos hsize hgranted

/-- The node that is reused determines the block. -/
theorem Found.pointer_eq {hhdmOffset : ℕ} (h : Found hhdmOffset state size pointer after)
    (hreuses : Reuses state size address) : pointer = address + 24 := by
  cases h with
  | reused hreuses' => rw [hreuses.unique hreuses']
  | zeroed hnone => exact absurd hreuses (hnone address)

/-- A word of a block that reuses a node is a word of the node. -/
theorem Found.load64_reused {hhdmOffset offset : ℕ} (h : Found hhdmOffset state size pointer after)
    (hreuses : Reuses state size address) (hoffset : offset + 8 ≤ size) :
    load64 after.bytes (pointer + offset) = load64 state.bytes (address + 24 + offset) := by
  cases h with
  | reused hreuses' _ hbytes =>
    obtain rfl := hreuses.unique hreuses'
    refine load64_congr fun x hlow hhigh ↦ hbytes x ⟨by dsimp only; omega, ?_⟩
    simp only [Extent.stop]
    omega
  | zeroed hnone => exact absurd hreuses (hnone address)

/-- A word of a block that reuses no node is zero. -/
theorem Found.load64_zeroed {hhdmOffset offset : ℕ} (h : Found hhdmOffset state size pointer after)
    (hnone : ∀ address, ¬ Reuses state size address) (hoffset : offset + 8 ≤ size) :
    load64 after.bytes (pointer + offset) = 0 := by
  cases h with
  | reused hreuses => exact absurd hreuses (hnone _)
  | zeroed _ _ _ hbytes =>
    refine loadBytes_zero fun x hlow hhigh ↦ hbytes x ⟨by dsimp only; omega, ?_⟩
    simp only [Extent.stop]
    omega

/-- The table after `memory_allocate_frame` depends on the table before alone. -/
theorem freelist_memoryAllocateFrame {hhdmOffset frame : ℕ}
    (hsound : Frames.Sound state.context.freelist)
    (hrun : run exec (memoryAllocateFrame hhdmOffset) state = some (frame, after)) :
    after.context.freelist = (Frames.firstFit state.context.freelist 1).elim state.context.freelist
      (Frames.shrunk state.context.freelist 1) := by
  rw [Frames.run_memoryAllocateFrame hsound] at hrun
  cases hfit : Frames.firstFit state.context.freelist 1 with
  | none =>
    rw [hfit] at hrun
    obtain ⟨-, rfl⟩ := Prod.mk.inj (Option.some.inj hrun)
    rfl
  | some index =>
    rw [hfit] at hrun
    obtain ⟨-, rfl⟩ := Prod.mk.inj (Option.some.inj hrun)
    rfl

/-- The address of a block with frames of its own depends on the table alone. -/
theorem pointer_kmalloc_large {hhdmOffset : ℕ} (hsound : Frames.Sound state.context.freelist)
    (hlock : state.memoryLock = 0) (hlarge : 4040 < size) (hcount : 1 ≤ frameCounts size)
    (hrun : run exec (Kernel.kmalloc hhdmOffset size) state = some (pointer, after)) :
    pointer = add (add (add ((Frames.firstFit state.context.freelist (frameCounts size)).elim 0
      fun index ↦ Frames.topFrame (state.context.freelist.segments index) (frameCounts size))
        hhdmOffset) 32) 8 := by
  have hframes := @Frames.run_memoryAllocateFrames hhdmOffset { state with memoryLock := 1 }
    (frameCounts size) hsound hcount
  rw [run_kmalloc_of_gt hlock hlarge, run_kmallocLarge, hframes, Option.map_some] at hrun
  have hpointer := congrArg Prod.fst (Option.some.inj hrun)
  dsimp only at hpointer
  rw [← hpointer]
  congr 3
  cases Frames.firstFit state.context.freelist (frameCounts size) with
  | none => rw [Option.elim_none, Option.elim_none]
  | some index => rw [Option.elim_some, Option.elim_some]

/-- The table after a small `kmalloc` is determined by the metadata before. -/
theorem Found.freelist_eq {hhdmOffset again : ℕ} {final : AllocatorState}
    (h : Found hhdmOffset first size pointer after)
    (hother : Found hhdmOffset second size again final) (halike : Alike first second)
    (hsymm : Alike second first) (hsound : Frames.Sound first.context.freelist) :
    final.context.freelist = after.context.freelist := by
  cases h with
  | reused hreuses hcontext =>
    cases hother with
    | reused _ hcontext' => rw [hcontext', hcontext, halike.context_eq]
    | zeroed hnone => exact absurd (hreuses.alike halike) (hnone _)
  | zeroed hnone hrun hcontext =>
    cases hother with
    | reused hreuses => exact absurd (hreuses.alike hsymm) (hnone _)
    | zeroed _ hrun' hcontext' =>
      rw [hcontext', hcontext]
      rw [freelist_memoryAllocateFrame hsound hrun,
        freelist_memoryAllocateFrame (by rwa [halike.context_eq]) hrun', halike.context_eq]

end Reuse

end SideHOS.Heap
