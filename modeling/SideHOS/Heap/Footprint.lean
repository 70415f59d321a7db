import SideHOS.Heap.Isolation
import SideHOS.Sharing.Trace

/-!
# The memory that calls of the heap access

`Clear` says that none of the loads and stores of a program meets an extent.  Along the same path
on which `kmalloc` and `kfree` were run before, every single access, reads included, meets headers,
free nodes, new frames and the freed block only, so that the cells of all other live blocks are
clear of the whole call and not merely unchanged at its end.
-/

namespace SideHOS.Kernel

open SideHOS.Machine

/-- The bytes behind a pointer that an access reads or writes. -/
def Access.span : Access → Extent
  | .load address => ⟨address, 8⟩
  | .store address _ => ⟨address, 8⟩
  | .storeByte address _ => ⟨address, 1⟩
  | _ => ⟨0, 0⟩

end SideHOS.Kernel

namespace SideHOS.Heap

open Kernel Linked Machine Machine.Word64 Machine.ByteMemory Sharing Sharing.Program Transition

/-- No access of the program, run alone, meets the extent. -/
def Clear {α : Type} (cell : Extent) (code : Code α) (state : AllocatorState) : Prop :=
  ∀ operation ∈ accesses exec code state, operation.span.Apart cell

/-- The extent is apart from everything that is the heap's own. -/
structure Outlying (mapping : Mapping) (state : AllocatorState) (heap : Layout) (cell : Extent) :
    Prop where
  headers : ∀ page ∈ heap.pages, page.header.Apart cell
  nodes : ∀ page ∈ heap.pages, ∀ node ∈ page.nodes, node.extent.Apart cell
  free : ∀ frame count, 0 < count →
    strided 4096 frame count ≤ Frames.free state.context.freelist →
      Extent.Apart ⟨frame + mapping.hhdmOffset, 4096 * count⟩ cell

section Clear

variable {α β : Type} {cell : Extent} {state after : AllocatorState} {code : Code α}

/-! ## Composing programs -/

theorem clear_pure (value : α) : Clear cell (pure value : Code α) state := nofun

theorem clear_access {operation : Access} {next : ℕ → Code α}
    (hspan : operation.span.Apart cell)
    (hnext : Clear cell (next (exec operation state).1) (exec operation state).2) :
    Clear cell (perform operation >>= next) state :=
  List.forall_mem_cons.mpr ⟨hspan, hnext⟩

/-- An access to a variable of the kernel meets no memory behind a pointer. -/
theorem clear_variable {operation : Access} {next : ℕ → Code α}
    (hspan : operation.span = ⟨0, 0⟩)
    (hnext : Clear cell (next (exec operation state).1) (exec operation state).2) :
    Clear cell (perform operation >>= next) state :=
  clear_access (hspan ▸ Or.inl (Nat.zero_le _)) hnext

theorem clear_bind {next : α → Code β} (hfirst : Clear cell code state)
    (hnext : ∀ value after, run exec code state = some (value, after) →
      Clear cell (next value) after) : Clear cell (code >>= next) state := by
  unfold Clear
  rw [accesses_bind]
  refine List.forall_mem_append.mpr ⟨hfirst, ?_⟩
  cases hrun : run exec code state with
  | none => exact nofun
  | some result => exact hnext result.1 result.2 hrun

/-- After a program that is known to end. -/
theorem clear_bind_of_eq {next : α → Code β} {value : α} (hfirst : Clear cell code state)
    (hrun : run exec code state = some (value, after)) (hnext : Clear cell (next value) after) :
    Clear cell (code >>= next) state := by
  refine clear_bind hfirst fun other final hother ↦ ?_
  obtain ⟨rfl, rfl⟩ := Prod.mk.inj (Option.some.inj (hrun.symm.trans hother))
  exact hnext

theorem clear_ite {condition : Prop} [Decidable condition] {first second : Code α}
    (hfirst : condition → Clear cell first state)
    (hsecond : ¬ condition → Clear cell second state) :
    Clear cell (if condition then first else second) state := by
  split
  · next h => exact hfirst h
  · next h => exact hsecond h

theorem clear_lockAcquire (hlock : state.memoryLock = 0)
    (hcode : Clear cell code { state with memoryLock := 1 }) :
    Clear cell (.await .lockAcquire code) state := by
  unfold Clear
  rw [accesses]
  refine List.forall_mem_cons.mpr ⟨Or.inl (Nat.zero_le _), ?_⟩
  simp only [exec, if_pos hlock, if_neg one_ne_zero]
  exact hcode

theorem clear_lockRelease {value : α} :
    Clear cell (perform .lockRelease >>= fun _ ↦ pure value : Code α) state :=
  clear_variable rfl (clear_pure value)

/-- A part of what is apart from the extent is apart from it. -/
theorem span_apart {region : Extent} {address length : ℕ} (hregion : region.Apart cell)
    (hlow : region.start ≤ address) (hhigh : address + length ≤ region.start + region.length) :
    Extent.Apart ⟨address, length⟩ cell :=
  hregion.mono_left ⟨hlow, hhigh⟩

/-- A loop along a null-terminated list whose turns are clear. -/
theorem clear_walk {σ : Type} (loop : ℕ → σ → ℕ → Code α) {next : ℕ → ℕ} {cells : List ℕ}
    (hend : ∀ acc cursor, Clear cell (loop 0 acc cursor) state)
    (hnull : ∀ fuel acc, Clear cell (loop (fuel + 1) acc 0) state)
    (hturn : ∀ fuel acc, ∀ cursor ∈ cells, cursor ≠ 0 →
      (∀ later, Clear cell (loop fuel later (next cursor)) state) →
        Clear cell (loop (fuel + 1) acc cursor) state) {head : ℕ}
    (hchain : Chain 0 next head cells) (fuel : ℕ) (acc : σ) :
    Clear cell (loop fuel acc head) state := by
  induction cells generalizing head fuel acc with
  | nil =>
    obtain rfl : head = 0 := hchain
    cases fuel with
    | zero => exact hend acc 0
    | succ fuel => exact hnull fuel acc
  | cons first rest ih =>
    obtain ⟨rfl, hne, hrest⟩ := hchain
    cases fuel with
    | zero => exact hend acc head
    | succ fuel =>
      refine hturn fuel acc head List.mem_cons_self hne fun later ↦ ?_
      apply ih _ hrest fuel later
      intro fuel acc cursor hcursor
      exact hturn fuel acc cursor (List.mem_cons_of_mem _ hcursor)

/-- The words of a page header are apart from what the header is apart from. -/
theorem page_span_apart {page : Page} (hheader : page.header.Apart cell)
    (hword : page.base + 4096 ≤ 2 ^ 64) {offset : ℕ} (hoffset : offset + 8 ≤ 32) :
    Extent.Apart ⟨add page.base offset, 8⟩ cell := by
  rw [add_of_lt (by omega)]
  apply span_apart hheader
  · simp only [Page.header]
    omega
  · simp only [Page.header]
    omega

/-- The two words of a node are apart from what the node is apart from. -/
theorem node_span_apart {node : Node} (hnode : node.header.Apart cell)
    (hword : node.address + 16 ≤ 2 ^ 64) {offset : ℕ} (hoffset : offset + 8 ≤ 16) :
    Extent.Apart ⟨add node.address offset, 8⟩ cell := by
  rw [add_of_lt (by omega)]
  apply span_apart hnode
  · simp only [Node.header]
    omega
  · simp only [Node.header]
    omega

theorem node_start_apart {node : Node} (hnode : node.header.Apart cell) :
    Extent.Apart ⟨node.address, 8⟩ cell := by
  apply span_apart hnode
  · exact le_rfl
  · simp only [Node.header]
    omega

/-- The page walk reads headers. -/
theorem clear_pageWalk {totalSize head fuel : ℕ} {pages : List Page}
    (hchain : Chain 0 (pageNext state.bytes) head (pages.map Page.base))
    (hword : ∀ page ∈ pages, page.base + 4096 ≤ 2 ^ 64)
    (hheaders : ∀ page ∈ pages, page.header.Apart cell) :
    Clear cell (pageWalk totalSize fuel head) state := by
  refine clear_walk (fun fuel (_ : Unit) page ↦ pageWalk totalSize fuel page)
    (fun _ _ ↦ nofun) (fun fuel _ ↦ ?_) (fun fuel _ cursor hcursor hne hlater ↦ ?_) hchain fuel ()
  · rw [pageWalk, if_pos rfl]
    exact clear_pure 0
  · obtain ⟨page, hpage, rfl⟩ := List.mem_map.mp hcursor
    have hspan {offset : ℕ} (hoffset : offset + 8 ≤ 32) :=
      page_span_apart (hheaders page hpage) (hword page hpage) hoffset
    rw [pageWalk, if_neg hne]
    refine clear_access (hspan (by norm_num)) (clear_ite (fun _ ↦ ?_) fun _ ↦ clear_pure _)
    exact clear_access (hspan (by norm_num)) (hlater ())

section Nodes

variable {head totalSize fuel : ℕ} {nodes : List Node}

/-- The headers of all nodes of a list are apart from the extent. -/
structure NodesApart (cell : Extent) (nodes : List Node) : Prop where
  apart : ∀ node ∈ nodes, node.header.Apart cell
  word : ∀ node ∈ nodes, node.address + 16 ≤ 2 ^ 64

/-- The node search reads nodes. -/
theorem clear_nodeSearch (hnodes : NodesAt state.bytes head nodes 0)
    (hapart : NodesApart cell nodes) (prev : ℕ) :
    Clear cell (nodeSearch totalSize fuel prev head) state := by
  refine clear_walk (nodeSearch totalSize) (fun _ _ ↦ nofun) (fun fuel prev ↦ ?_)
    (fun fuel prev cursor hcursor hne hlater ↦ ?_) hnodes.path fuel prev
  · rw [nodeSearch, if_pos rfl]
    exact clear_pure _
  · obtain ⟨node, hnode, rfl⟩ := List.mem_map.mp hcursor
    have hcell := hapart.apart node hnode
    rw [nodeSearch, if_neg hne]
    refine clear_access (node_start_apart hcell) (clear_ite (fun _ ↦ ?_) fun _ ↦ clear_pure _)
    exact clear_access (node_span_apart hcell (hapart.word node hnode) (by norm_num)) (hlater _)

/-- The walk to the insert position reads nodes. -/
theorem clear_insertWalk {address : ℕ} (hnodes : NodesAt state.bytes head nodes 0)
    (hapart : NodesApart cell nodes) (prev : ℕ) :
    Clear cell (insertWalk address fuel prev head) state := by
  refine clear_walk (insertWalk address) (fun _ _ ↦ nofun) (fun fuel prev ↦ ?_)
    (fun fuel prev cursor hcursor hne hlater ↦ ?_) hnodes.path fuel prev
  · rw [insertWalk, if_pos rfl]
    exact clear_pure _
  · obtain ⟨node, hnode, rfl⟩ := List.mem_map.mp hcursor
    rw [insertWalk, if_neg hne]
    refine clear_ite (fun _ ↦ ?_) fun _ ↦ clear_pure _
    exact clear_access (node_span_apart (hapart.apart node hnode) (hapart.word node hnode)
      (by norm_num)) (hlater _)

/-- The scan for the largest length reads nodes. -/
theorem clear_maximumScan (hnodes : NodesAt state.bytes head nodes 0)
    (hapart : NodesApart cell nodes) (maxSize : ℕ) :
    Clear cell (maximumScan fuel head maxSize) state := by
  refine clear_walk (fun fuel maxSize cursor ↦ maximumScan fuel cursor maxSize)
    (fun _ _ ↦ nofun) (fun fuel maxSize ↦ ?_)
    (fun fuel maxSize cursor hcursor hne hlater ↦ ?_) hnodes.path fuel maxSize
  · rw [maximumScan, if_pos rfl]
    exact clear_pure _
  · obtain ⟨node, hnode, rfl⟩ := List.mem_map.mp hcursor
    have hstart := node_start_apart (hapart.apart node hnode)
    have hnext : Extent.Apart ⟨add node.address 8, 8⟩ cell :=
      node_span_apart (hapart.apart node hnode) (hapart.word node hnode) (by norm_num)
    rw [maximumScan, if_neg hne]
    refine clear_access hstart (clear_ite (fun _ ↦ ?_) fun _ ↦ ?_)
    · exact clear_access hstart (clear_access hnext (hlater _))
    · exact clear_access hnext (hlater _)

/-- One turn of the merge loop reads and writes the node and its successor. -/
theorem clear_mergeLoop_cons {low high : ℕ} {node next : Node} {rest : List Node}
    (hnodes : NodesAt state.bytes node.address (node :: next :: rest) 0)
    (hordered : Ordered low high (node :: next :: rest)) (hword : high ≤ 2 ^ 64)
    (hnode : node.header.Apart cell) (hnext : next.header.Apart cell)
    (hmerged : Mergeable node next → Clear cell (mergeLoop fuel node.address)
      { state with bytes := mergeBytes state.bytes node next })
    (hlater : ¬ Mergeable node next → Clear cell (mergeLoop fuel next.address) state) :
    Clear cell (mergeLoop (fuel + 1) node.address) state := by
  obtain ⟨-, hne, hlength, hrest⟩ := nodesAt_cons.mp hnodes
  obtain ⟨hlink, hnextne, hnextlength, -⟩ := nodesAt_cons.mp hrest
  have hstop := (List.pairwise_cons.mp hordered.pairwise).1 next List.mem_cons_self
  have hend := (hordered.within next (by simp)).2
  simp only [Node.extent, Extent.stop] at hstop hend
  have hsum :
      add (add (add node.address 16) node.length) 8 = node.address + 16 + node.length + 8 := by
    rw [add_of_lt (show node.address + 16 < 2 ^ 64 by omega),
      add_of_lt (show node.address + 16 + node.length < 2 ^ 64 by omega),
      add_of_lt (show node.address + 16 + node.length + 8 < 2 ^ 64 by omega)]
  have height : add node.address 8 = node.address + 8 := add_of_lt (by omega)
  have hnexteight : add next.address 8 = next.address + 8 := add_of_lt (by omega)
  have hfirst : add node.length 16 = node.length + 16 := add_of_lt (by omega)
  have hsecond : add (node.length + 16) next.length = node.length + 16 + next.length :=
    add_of_lt (by omega)
  unfold nodeNext at hlink
  rw [height] at hlink
  have htest : node.address + 16 + node.length + 8 = next.address ↔ Mergeable node next := by
    simp only [Mergeable, Node.extent, Extent.stop, add_assoc]
  have hspan : ∀ offset, offset + 8 ≤ 16 → Extent.Apart ⟨node.address + offset, 8⟩ cell := by
    intro offset hoffset
    rw [← add_of_lt (show node.address + offset < 2 ^ 64 by omega)]
    exact node_span_apart hnode (by omega) hoffset
  have hnextspan : Extent.Apart ⟨next.address + 8, 8⟩ cell := by
    rw [← hnexteight]
    exact node_span_apart hnext (by omega) le_rfl
  have hstart := node_start_apart hnode
  have hlinkspan := hspan 8 le_rfl
  have hnextstart := node_start_apart hnext
  unfold Clear at hmerged hlater ⊢
  simp only [mergeLoop, loadNodeNext, loadNodeLength, storeNodeLength, storeNodeNext,
    accesses_perform_bind, accesses_ite, exec, if_neg hne, height, hlink, if_neg hnextne, hlength,
    sizeofHeapNode, sizeofU64, hsum, htest]
  simp (disch := omega) only [load64_store64_same, load64_store64_of_apart, hfirst, hlink,
    hnextlength, hsecond, hnexteight]
  simp only [List.forall_mem_cons, Access.span]
  refine ⟨hlinkspan, hstart, hlinkspan, ?_⟩
  split
  · next hmergeable =>
    simp only [List.forall_mem_cons]
    refine ⟨hstart, hstart, hstart, hlinkspan, hnextstart, hstart, hlinkspan, hnextspan, hlinkspan,
      ?_⟩
    have hdone := hmerged hmergeable
    rw [mergeBytes, nodeNext, hnexteight] at hdone
    exact hdone
  · next hapart =>
    rw [List.forall_mem_cons]
    exact ⟨hlinkspan, hlater hapart⟩

/-- The merge loop reads and writes the headers of the nodes from its start on. -/
theorem clear_mergeLoop {low high : ℕ} {node : Node}
    (hnodes : NodesAt state.bytes node.address (node :: nodes) 0)
    (hordered : Ordered low high (node :: nodes)) (hword : high ≤ 2 ^ 64)
    (hapart : ∀ other ∈ node :: nodes, other.header.Apart cell) :
    Clear cell (mergeLoop fuel node.address) state := by
  induction nodes generalizing node state fuel with
  | nil =>
    cases fuel with
    | zero => exact nofun
    | succ fuel =>
      have hwithin := (hordered.within node List.mem_cons_self).2
      simp only [Node.extent, Extent.stop] at hwithin
      obtain ⟨-, hne, -, hrest⟩ := nodesAt_cons.mp hnodes
      have hnext : load64 state.bytes (add node.address 8) = 0 := nodesAt_nil.mp hrest
      have hspan : Extent.Apart ⟨add node.address 8, 8⟩ cell :=
        node_span_apart (hapart node List.mem_cons_self) (by omega) le_rfl
      rw [mergeLoop, if_neg hne]
      exact clear_access hspan
        (clear_ite (fun _ ↦ clear_pure ()) fun hfalse ↦ absurd hnext hfalse)
  | cons next rest ih =>
    cases fuel with
    | zero => exact nofun
    | succ fuel =>
      rw [List.forall_mem_cons, List.forall_mem_cons] at hapart
      obtain ⟨hnode, hnext, hrest⟩ := hapart
      apply clear_mergeLoop_cons hnodes hordered hword hnode hnext
      · intro hmergeable
        have hstep := hordered.mergeStep (MergeStep.intro [] node next rest hmergeable)
        have hmerged : NodesAt (mergeBytes state.bytes node next) (node.merge next).address
            (node.merge next :: rest) 0 := nodesAt_mergeBytes hnodes hordered hword
        exact @ih { state with bytes := mergeBytes state.bytes node next } fuel (node.merge next)
          hmerged hstep (List.forall_mem_cons.mpr ⟨hnode, hrest⟩)
      · intro _
        obtain ⟨-, -, -, htail⟩ := nodesAt_cons.mp hnodes
        rw [(nodesAt_cons.mp htail).1] at htail
        exact ih htail hordered.tail (List.forall_mem_cons.mpr ⟨hnext, hrest⟩)

end Nodes

/-- `memset` writes the bytes it is given. -/
theorem clear_memset {pointer index count : ℕ} {value : UInt8}
    (hword : pointer + index + count ≤ 2 ^ 64)
    (hapart : Extent.Apart ⟨pointer + index, count⟩ cell) :
    Clear cell (memset pointer value index count) state := by
  induction count generalizing index state with
  | zero => exact nofun
  | succ count ih =>
    have hbyte : add pointer index = pointer + index := add_of_lt (by omega)
    rw [memset]
    apply clear_access
    · change Extent.Apart ⟨add pointer index, 1⟩ cell
      rw [hbyte]
      exact span_apart hapart le_rfl (by dsimp only; omega)
    · refine ih (by omega) (span_apart hapart ?_ ?_)
      · dsimp only
        omega
      · dsimp only
        omega

/-- The words of a run of frames. -/
theorem frame_span_apart {base count offset : ℕ}
    (hapart : Extent.Apart ⟨base, 4096 * count⟩ cell) (hcount : 0 < count)
    (hword : base + 4096 * count ≤ 2 ^ 64) (hoffset : offset + 8 ≤ 4096) :
    Extent.Apart ⟨add base offset, 8⟩ cell := by
  rw [add_of_lt (by omega)]
  apply span_apart hapart
  · dsimp only
    omega
  · dsimp only
    omega

section Frames

variable {hhdmOffset index count base : ℕ}

/-- A new heap page is written within its frame. -/
theorem clear_takeFrame
    (hend : (state.context.freelist.segments index).base +
      4096 * (state.context.freelist.segments index).length ≤ 2 ^ 64)
    (hlength : 1 ≤ (state.context.freelist.segments index).length)
    (hbase : add (Frames.topFrame (state.context.freelist.segments index) 1) hhdmOffset = base)
    (hword : base + 4096 ≤ 2 ^ 64) (hapart : Extent.Apart ⟨base, 4096 * 1⟩ cell) :
    Clear cell (takeFrame hhdmOffset index) state := by
  have hsub : sub (state.context.freelist.segments index).length 1 =
      (state.context.freelist.segments index).length - 1 := sub_of_le hlength (by omega)
  have hframe : addressPhysicalToVirtual hhdmOffset
      (add (state.context.freelist.segments index).base
        (mul size4KB (sub (state.context.freelist.segments index).length 1))) = base := by
    rw [hsub, Frames.nthSegment_top hend le_rfl hlength]
    exact hbase
  have hspan {offset : ℕ} (hoffset : offset + 8 ≤ 4096) :
      Extent.Apart ⟨add base offset, 8⟩ cell :=
    frame_span_apart hapart one_pos (by omega) hoffset
  have hfirst : Extent.Apart ⟨base, 8⟩ cell := span_apart hapart le_rfl (by dsimp only; omega)
  have hnode : add (add base 32) 8 = add base 40 := by
    rw [add_of_lt (show base + 32 < 2 ^ 64 by omega), add_of_lt (by omega), add_of_lt (by omega)]
  rw [takeFrame]
  apply clear_variable rfl
  refine clear_bind_of_eq (clear_variable rfl (clear_pure _)) (Frames.run_memoryNthSegment _ _) ?_
  simp only [exec, hframe]
  apply clear_variable rfl
  apply clear_variable rfl
  refine clear_bind_of_eq (clear_memset hword hapart) (Frames.run_memset _ _ _ _ _) ?_
  have hlength : Extent.Apart ⟨add base 32, 8⟩ cell := hspan (by norm_num)
  have hnext : Extent.Apart ⟨add (add base 32) 8, 8⟩ cell := hnode ▸ hspan (by norm_num)
  have hlargest : Extent.Apart ⟨add base 16, 8⟩ cell := hspan (by norm_num)
  have hlink : Extent.Apart ⟨add base 24, 8⟩ cell := hspan (by norm_num)
  exact clear_access hlength <| clear_access hnext <| clear_access hfirst <|
    clear_access hlargest <| clear_variable rfl <| clear_access hlink <|
    clear_variable rfl (clear_pure _)

/-- The header of a new block is written within its frames. -/
theorem clear_takeFrames (hcount : 1 ≤ count)
    (hend : (state.context.freelist.segments index).base +
      4096 * (state.context.freelist.segments index).length ≤ 2 ^ 64)
    (hlength : count ≤ (state.context.freelist.segments index).length)
    (hbase : add (Frames.topFrame (state.context.freelist.segments index) count) hhdmOffset = base)
    (hne : base ≠ 0) (hword : base + 4096 * count ≤ 2 ^ 64)
    (hapart : Extent.Apart ⟨base, 4096 * count⟩ cell) :
    Clear cell (takeFrames hhdmOffset count index) state := by
  have hsub : sub (state.context.freelist.segments index).length count =
      (state.context.freelist.segments index).length - count := sub_of_le hlength (by omega)
  have hframe : addressPhysicalToVirtual hhdmOffset
      (add (state.context.freelist.segments index).base
        (mul size4KB (sub (state.context.freelist.segments index).length count))) = base := by
    rw [hsub, Frames.nthSegment_top hend hcount hlength]
    exact hbase
  have htotal : mul size4KB count = 4096 * count := mul_of_lt (show 4096 * count < 2 ^ 64 by omega)
  have hfirst : Extent.Apart ⟨base, 8⟩ cell := span_apart hapart le_rfl (by dsimp only; omega)
  have hheader : Extent.Apart ⟨add base 32, 8⟩ cell :=
    frame_span_apart hapart hcount hword (by norm_num)
  have hlargest : Extent.Apart ⟨add base 16, 8⟩ cell :=
    frame_span_apart hapart hcount hword (by norm_num)
  rw [takeFrames]
  apply clear_variable rfl
  refine clear_bind_of_eq (clear_variable rfl (clear_pure _)) (Frames.run_memoryNthSegment _ _) ?_
  simp only [exec, hframe, htotal]
  apply clear_variable rfl
  apply clear_variable rfl
  refine clear_bind_of_eq (clear_memset hword hapart) (Frames.run_memset _ _ _ _ _) ?_
  exact clear_access hheader <| clear_access hfirst <| clear_access hlargest (clear_pure _)

/-- The scan for a frame reads the table until it takes a frame. -/
theorem clear_allocateFrameFrom {fuel : ℕ}
    (htake : ∀ index < Frames.scanLimit state.context.freelist,
      1 ≤ (state.context.freelist.segments index).length →
        Clear cell (takeFrame hhdmOffset index) state) :
    Clear cell (allocateFrameFrom hhdmOffset fuel index) state := by
  induction fuel generalizing index with
  | zero => exact nofun
  | succ fuel ih =>
    rw [allocateFrameFrom]
    refine clear_variable rfl (clear_ite (fun hindex ↦ ?_) fun _ ↦ clear_pure 0)
    refine clear_variable rfl (clear_ite (fun hlength ↦ ?_) fun _ ↦ ih)
    exact htake index (Frames.lt_scanLimit_iff.mp hindex) hlength

/-- The scan for a run of frames reads the table until it takes them. -/
theorem clear_allocateFramesFrom {fuel : ℕ}
    (htake : ∀ index < Frames.scanLimit state.context.freelist,
      count ≤ (state.context.freelist.segments index).length →
        Clear cell (takeFrames hhdmOffset count index) state) :
    Clear cell (allocateFramesFrom hhdmOffset count fuel index) state := by
  induction fuel generalizing index with
  | zero => exact nofun
  | succ fuel ih =>
    rw [allocateFramesFrom]
    refine clear_variable rfl (clear_ite (fun hindex ↦ ?_) fun _ ↦ clear_pure 0)
    refine clear_variable rfl (clear_ite (fun _ ↦ ih) fun hlength ↦ ?_)
    exact htake index (Frames.lt_scanLimit_iff.mp hindex) (not_lt.mp hlength)

end Frames

section Represents

variable {mapping : Mapping} {heap : Layout} {count size index : ℕ} {page : Page} {block : Block}

/-- The last frames of an entry are free, and mapped where the extent is not. -/
theorem Represents.top_frames (h : Represents mapping state heap)
    (houtlying : Outlying mapping state heap cell) (hcount : 1 ≤ count)
    (hindex : index < Frames.scanLimit state.context.freelist)
    (hlength : count ≤ (state.context.freelist.segments index).length) :
    ∃ base, add (Frames.topFrame (state.context.freelist.segments index) count)
        mapping.hhdmOffset = base ∧ base ≠ 0 ∧ base + 4096 * count ≤ 2 ^ 64 ∧
      Extent.Apart ⟨base, 4096 * count⟩ cell := by
  have hle : strided 4096 (Frames.topFrame (state.context.freelist.segments index) count) count ≤
      Frames.free state.context.freelist := by
    rw [Frames.free, ← Frames.frames_shrunk (h.sound.index_lt_cursor hindex) hlength]
    exact Multiset.le_add_left _ _
  obtain ⟨hne, hword⟩ := h.free_facts hcount hle
  exact ⟨_, add_of_lt (by omega), hne, hword, houtlying.free _ count hcount hle⟩

theorem Represents.clear_memoryAllocateFrame (h : Represents mapping state heap)
    (houtlying : Outlying mapping state heap cell) :
    Clear cell (memoryAllocateFrame mapping.hhdmOffset) state := by
  apply clear_allocateFrameFrom
  intro index hindex hlength
  obtain ⟨base, hbase, -, hword, hapart⟩ := h.top_frames houtlying le_rfl hindex hlength
  exact clear_takeFrame (h.sound.end_le index (h.sound.index_lt_cursor hindex)) hlength hbase hword
    hapart

theorem Represents.clear_memoryAllocateFrames (h : Represents mapping state heap)
    (houtlying : Outlying mapping state heap cell) (hcount : 1 ≤ count) :
    Clear cell (memoryAllocateFrames mapping.hhdmOffset count) state := by
  apply clear_allocateFramesFrom
  intro index hindex hlength
  obtain ⟨base, hbase, hne, hword, hapart⟩ := h.top_frames houtlying hcount hindex hlength
  exact clear_takeFrames hcount (h.sound.end_le index (h.sound.index_lt_cursor hindex)) hlength
    hbase hne hword hapart

/-! ## `kmalloc` -/

/-- Choosing a page reads headers and writes at most a new frame. -/
theorem Represents.clear_choosePage (h : Represents mapping state heap)
    (houtlying : Outlying mapping state heap cell) :
    Clear cell (choosePage mapping.hhdmOffset size) state := by
  have hword : ∀ page ∈ heap.pages, page.base + 4096 ≤ 2 ^ 64 := fun page hpage ↦
    (h.page_facts hpage).2.2
  have hframe : Clear cell (memoryAllocateFrame mapping.hhdmOffset >>= fun frame ↦
      pure (addressPhysicalToVirtual mapping.hhdmOffset frame)) state := by
    rw [Clear, accesses_bind_pure]
    exact h.clear_memoryAllocateFrame houtlying
  rw [choosePage]
  apply clear_variable rfl
  refine clear_bind_of_eq (clear_pageWalk h.chain hword houtlying.headers) h.run_pageWalk ?_
  refine clear_ite (fun _ ↦ hframe) fun hne ↦ ?_
  cases hfind : heap.pages.find? fun page ↦ decide (size ≤ page.largest) with
  | none =>
    rw [hfind] at hne
    exact absurd rfl hne
  | some page =>
    have hpage := List.mem_of_find?_eq_some hfind
    apply clear_access
    · exact page_span_apart (houtlying.headers page hpage) (hword page hpage) (by norm_num)
    · exact clear_ite (fun _ ↦ hframe) fun _ ↦ clear_pure _

/-- What is apart from the heap is apart from it when a page was prepared. -/
theorem Outlying.prepared {totalSize : ℕ} {middle : AllocatorState} {pages : List Page}
    (h : Outlying mapping state heap cell) (hheap : Represents mapping state heap)
    (hprepared : Prepared mapping state heap totalSize middle pages) :
    (∀ page ∈ pages, page.header.Apart cell) ∧
      ∀ page ∈ pages, ∀ node ∈ page.nodes, node.extent.Apart cell := by
  cases hprepared with
  | found => exact ⟨h.headers, h.nodes⟩
  | fresh hsmall hallocated hframe hbytes =>
    have hle := (hheap.taken_facts one_pos hallocated hframe).1
    have hapart := h.free _ 1 one_pos hle
    refine ⟨List.forall_mem_cons.mpr ⟨?_, h.headers⟩, List.forall_mem_cons.mpr ⟨?_, h.nodes⟩⟩
    · refine hapart.mono_left ⟨le_rfl, ?_⟩
      simp only [Page.header, Page.fresh, Extent.stop]
      omega
    · refine List.forall_mem_singleton.mpr (hapart.mono_left ?_)
      simp only [Node.extent, Extent.Within, Extent.stop]
      omega

end Represents

section Carve

variable {page : Page} {front back nodes : List Node} {node : Node} {size : ℕ}

/-- The end of `kmalloc` writes a link and the header and reads the list. -/
theorem clear_carveEnd {target value : ℕ} (hheader : page.header.Apart cell)
    (hword : page.base + 4096 ≤ 2 ^ 64) (hfront : NodesApart cell front)
    (hne : ∀ other ∈ front, other.address ≠ 0)
    (hnodes : NodesAt (linked state.bytes page.base front target)
      (load64 (linked state.bytes page.base front target) page.base) nodes 0)
    (hapart : NodesApart cell nodes) :
    Clear cell (do
      let _ ← relink page.base (lastAddress front) target
      let head ← loadPageFreelist page.base
      let maxSize ← maximumScan walkFuel head 0
      let _ ← storePageLargest page.base maxSize
      let _ ← perform .lockRelease
      pure value) state := by
  have hbase : Extent.Apart ⟨page.base, 8⟩ cell :=
    span_apart hheader le_rfl (by simp only [Page.header]; omega)
  have hlargest : Extent.Apart ⟨add page.base 16, 8⟩ cell :=
    page_span_apart hheader hword (by norm_num)
  have hrest : Clear cell (do
      let head ← loadPageFreelist page.base
      let maxSize ← maximumScan walkFuel head 0
      let _ ← storePageLargest page.base maxSize
      let _ ← perform .lockRelease
      pure value) { state with bytes := linked state.bytes page.base front target } := by
    refine clear_access hbase (clear_bind (clear_maximumScan hnodes hapart 0) fun _ _ _ ↦ ?_)
    exact clear_access hlargest clear_lockRelease
  rcases List.eq_nil_or_concat front with rfl | ⟨earlier, prev, rfl⟩
  · exact clear_access hbase hrest
  · rw [List.concat_eq_append] at hfront hne hrest ⊢
    have hprev : prev ∈ earlier ++ [prev] := by simp
    have hlink := node_span_apart (hfront.apart prev hprev) (hfront.word prev hprev) (le_refl 16)
    have hnext : add prev.address 8 = prev.address + 8 :=
      add_of_lt (by have := hfront.word prev hprev; omega)
    rw [lastAddress_concat, relink, if_pos (hne prev hprev)]
    rw [linked_concat, ← hnext] at hrest
    exact clear_access hlink hrest

/-- The nodes of a page are apart from what they are apart from as a whole. -/
theorem nodesApart_of_ordered {low high : ℕ} (hordered : Ordered low high nodes)
    (hword : high ≤ 2 ^ 64) (hnodes : ∀ node ∈ nodes, node.extent.Apart cell) :
    NodesApart cell nodes := by
  refine ⟨fun node hnode ↦ (hnodes node hnode).mono_left ⟨le_rfl, ?_⟩, fun node hnode ↦ ?_⟩
  · simp only [Node.header, Node.extent, Extent.stop]
    omega
  · have hwithin := (hordered.within node hnode).2
    simp only [Node.extent, Extent.stop] at hwithin
    omega

/-- `kmalloc` from a node reads and writes the header of its page and free nodes. -/
theorem clear_carveNode (hpage : PageAt state.bytes page) (hword : page.base + 4096 ≤ 2 ^ 64)
    (hfit : page.Fit front node back size) (hpointer : node.address + 24 < 2 ^ 64)
    (hheader : page.header.Apart cell) (hnodes : ∀ other ∈ page.nodes, other.extent.Apart cell) :
    Clear cell (carveNode size (size + 8) page.base (lastAddress front) node.address) state := by
  have hlengths := hpage.nodes.lengths node hfit.mem
  have hlength := hfit.le_length
  have hnode := page.ordered.within node hfit.mem
  have hextent := hnodes node hfit.mem
  simp only [Node.extent, Extent.stop] at hnode
  have hfront : ∀ other ∈ front, other ∈ page.nodes := fun other hother ↦ by
    rw [hfit.nodes_eq]
    exact List.mem_append_left _ hother
  have hall := nodesApart_of_ordered page.ordered hword hnodes
  have hfrontApart : NodesApart cell front :=
    ⟨fun other hother ↦ hall.apart other (hfront other hother),
      fun other hother ↦ hall.word other (hfront other hother)⟩
  have hne : ∀ other ∈ front, other.address ≠ 0 := fun other hother ↦ by
    have hwithin := (page.ordered.within other (hfront other hother)).1
    omega
  have hscan := nodesAt_carve hpage hword hfit
  have hrest : NodesApart cell (front ++ carvedRest node size ++ back) :=
    nodesApart_of_ordered hfit.carved_ordered hword fun other hother ↦
      (hfit.rest_apart (fun first hfirst ↦ (hnodes first hfirst).symm) other hother).symm
  have hbase : add node.address 16 = node.address + 16 := add_of_lt (by omega)
  have hkept :
      load64 (store64 state.bytes (node.address + 16) size) node.address = node.length := by
    rw [load64_store64_of_apart (by omega), hlengths]
  have hremaining : sub node.length (size + 8) = remaining node size :=
    sub_of_le hlength (by omega)
  have hspan {address : ℕ} (hlow : node.address ≤ address)
      (hhigh : address + 8 ≤ node.address + 16 + node.length) :
      Extent.Apart ⟨address, 8⟩ cell :=
    span_apart hextent hlow (by simp only [Node.extent]; omega)
  have hword' : Extent.Apart ⟨node.address + 16, 8⟩ cell := hspan (by omega) (by omega)
  have hlink : Extent.Apart ⟨add node.address 8, 8⟩ cell :=
    node_span_apart (hall.apart node hfit.mem) (by omega) le_rfl
  unfold carveNode
  simp only [sizeofHeapNode, sizeofU64, hbase]
  refine clear_access hlink (clear_access hword' (clear_access (hspan le_rfl (by omega)) ?_))
  simp only [exec, hkept, hremaining]
  refine clear_ite (fun hsmall ↦ clear_access hword' ?_) fun hlarge ↦ ?_
  · have hsum : add size (remaining node size) = size + remaining node size :=
      add_of_lt (by simp only [remaining]; omega)
    have hcut : cutBytes state.bytes node size =
        store64 (store64 state.bytes (node.address + 16) size) (node.address + 16)
          (size + remaining node size) := if_pos hsmall
    have htarget : replacement state.bytes node size = nodeNext state.bytes node.address :=
      if_pos hsmall
    rw [htarget, hcut, ← hsum] at hscan
    exact clear_carveEnd hheader hword hfrontApart hne hscan hrest
  · have hroom : size + 24 ≤ node.length := by
      simp only [remaining] at hlarge
      omega
    have hnew : add (node.address + 16) (size + 8) = node.address + 24 + size := by
      rw [add_of_lt (by omega)]
      omega
    have hnewNext : add (node.address + 24 + size) 8 = node.address + 24 + size + 8 :=
      add_of_lt (by omega)
    have hleft : sub (remaining node size) 16 = remaining node size - 16 :=
      sub_of_le (not_lt.mp hlarge) (by simp only [remaining]; omega)
    have hcut : cutBytes state.bytes node size =
        store64 (store64 (store64 state.bytes (node.address + 16) size) (node.address + 24 + size)
          (remaining node size - 16)) (node.address + 24 + size + 8)
          (nodeNext state.bytes node.address) := if_neg hlarge
    have htarget : replacement state.bytes node size = node.address + 24 + size := if_neg hlarge
    have hfirst : Extent.Apart ⟨node.address + 24 + size, 8⟩ cell := hspan (by omega) (by omega)
    have hsecond : Extent.Apart ⟨add (node.address + 24 + size) 8, 8⟩ cell := by
      rw [hnewNext]
      exact hspan (by omega) (by omega)
    rw [htarget, hcut, ← hnewNext, ← hleft] at hscan
    rw [hnew]
    refine clear_access hfirst (clear_access hsecond ?_)
    exact clear_carveEnd hheader hword hfrontApart hne hscan hrest

/-- `kmalloc` within a page reads and writes its header and its free nodes. -/
theorem clear_kmallocIn (hpage : PageAt state.bytes page) (hword : page.base + 4096 ≤ 2 ^ 64)
    (hfit : page.Fit front node back size) (hfirst : ∀ other ∈ front, other.length < size + 8)
    (hpointer : node.address + 24 < 2 ^ 64) (hheader : page.header.Apart cell)
    (hnodes : ∀ other ∈ page.nodes, other.extent.Apart cell) :
    Clear cell (kmallocIn size (size + 8) page.base) state := by
  have hbase : Extent.Apart ⟨page.base, 8⟩ cell :=
    span_apart hheader le_rfl (by simp only [Page.header]; omega)
  have hsearch :
      Clear cell (nodeSearch (size + 8) walkFuel 0 (load64 state.bytes page.base)) state :=
    clear_nodeSearch hpage.nodes (nodesApart_of_ordered page.ordered hword hnodes) 0
  rw [kmallocIn]
  refine clear_access hbase (clear_bind_of_eq hsearch (hpage.run_search hword hfit hfirst) ?_)
  simp only [if_neg hfit.address_ne_zero]
  exact clear_carveNode hpage hword hfit hpointer hheader hnodes

end Carve

section Kmalloc

variable {mapping : Mapping} {heap : Layout} {size : ℕ}

/-- `kmalloc` of a small block with the lock taken. -/
theorem Choice.clear_kmallocSmall (choice : Choice mapping state heap size)
    (h : Represents mapping state heap) (houtlying : Outlying mapping state heap cell)
    (hsize : size ≤ 4040) (hpointer : choice.node.address + 24 < 2 ^ 64) :
    Clear cell (Kernel.kmallocSmall mapping.hhdmOffset size) state := by
  have htotal : add size 8 = size + 8 := add_of_lt (by omega)
  obtain ⟨hheaders, hnodes⟩ := houtlying.prepared h choice.prepared
  unfold Kernel.kmallocSmall
  simp only [sizeofU64, htotal]
  refine clear_bind_of_eq (h.clear_choosePage houtlying) choice.chooses ?_
  exact clear_kmallocIn choice.pageAt choice.page_facts.2.2 choice.fit choice.first hpointer
    (hheaders _ choice.mem) (hnodes _ choice.mem)

/-- `kmalloc` of a large block with the lock taken. -/
theorem Represents.clear_kmallocLarge (h : Represents mapping state heap)
    (houtlying : Outlying mapping state heap cell) (hcount : 0 < frameCounts size) :
    Clear cell (Kernel.kmallocLarge mapping.hhdmOffset size) state := by
  rw [Kernel.kmallocLarge]
  exact clear_bind (h.clear_memoryAllocateFrames houtlying hcount) fun _ _ _ ↦ clear_lockRelease

/-- Taking the lock leaves an extent apart from the heap apart from it. -/
theorem Outlying.withLock (h : Outlying mapping state heap cell) (lock : ℕ) :
    Outlying mapping { state with memoryLock := lock } heap cell :=
  ⟨h.headers, h.nodes, h.free⟩

/-- No access of a granted `kmalloc` meets what is apart from the heap. -/
theorem Represents.clear_kmalloc (h : Represents mapping state heap)
    (houtlying : Outlying mapping state heap cell) (hlock : state.memoryLock = 0)
    (hsize : 0 < size) (hcount : 4040 < size → 0 < frameCounts size)
    (hgranted : Granted size state) :
    Clear cell (kmalloc mapping.hhdmOffset size) state := by
  have hrepresents := h.withLock 1
  refine clear_lockAcquire hlock (clear_ite (fun hlarge ↦ ?_) fun hsmall ↦ ?_)
  · exact hrepresents.clear_kmallocLarge (houtlying.withLock 1) (hcount hlarge)
  · obtain ⟨choice⟩ := hrepresents.exists_choice (not_lt.mp hsmall) hgranted
    have hbounds := choice.node_bounds
    have hword := choice.page_facts.2.2
    exact choice.clear_kmallocSmall hrepresents (houtlying.withLock 1) (not_lt.mp hsmall)
      (by omega)

end Kmalloc

/-! ## `kfree` -/

section Kfree

variable {mapping : Mapping} {heap : Layout} {page : Page} {block : Block}

/-- The merge loop after the insertion reads and writes headers. -/
theorem clear_mergeReleased {start : Node} {earlier rest : List Node}
    (hpage : PageAt state.bytes page) (hword : page.base + 4096 ≤ 2 ^ 64)
    (hblock : block ∈ page.blocks)
    (hsplit : nodesBefore block page.nodes ++ freedNode block :: nodesAfter block page.nodes =
      earlier ++ start :: rest)
    (hnodes : ∀ node ∈ page.nodes, node.header.Apart cell) (hslot : block.slot.Apart cell) :
    Clear cell (mergeLoop walkFuel start.address)
      { state with bytes := insertedBytes state.bytes page block } := by
  have hwithin := page.blocks_within block hblock
  have hordered := page.ordered.insert (page.nodes_apart block hblock)
    ⟨by simp only [Block.slot]; omega, hwithin.2⟩
  have hinserted := nodesAt_inserted hpage hword hblock
  have hapart : ∀ node ∈ nodesBefore block page.nodes ++ freedNode block ::
      nodesAfter block page.nodes, node.header.Apart cell := by
    have hboth := before_append_after block page.nodes
    intro node hnode
    rw [List.mem_append, List.mem_cons] at hnode
    rcases hnode with hnode | rfl | hnode
    · exact hnodes node (hboth ▸ List.mem_append_left _ hnode)
    · exact hslot.mono_left freedNode_header_within
    · exact hnodes node (hboth ▸ List.mem_append_right _ hnode)
  rw [hsplit] at hordered hinserted hapart
  obtain ⟨middle, -, hrest⟩ := nodesAt_append.mp hinserted
  obtain rfl : middle = start.address := (nodesAt_cons.mp hrest).1
  have hsuffix : Ordered (page.base + 32) (page.base + 4096) (start :: rest) :=
    ⟨(List.pairwise_append.mp hordered.pairwise).2.1, fun node hnode ↦
      hordered.within node (List.mem_append_right _ hnode)⟩
  apply clear_mergeLoop hrest hsuffix hword
  intro node hnode
  exact hapart node (List.mem_append_right _ hnode)

/-- `kfree` of a block in a page reads and writes the list head, headers of free nodes and the
block. -/
theorem clear_kfreeSmall (hpage : PageAt state.bytes page) (hword : page.base + 4096 ≤ 2 ^ 64)
    (hblock : block ∈ page.blocks) (hheader : page.header.Apart cell)
    (hnodes : ∀ node ∈ page.nodes, node.header.Apart cell) (hslot : block.slot.Apart cell) :
    Clear cell (Kernel.kfreeSmall page.base (block.pointer - 8)) state := by
  have hwithin := page.blocks_within block hblock
  have hstop := hwithin.2
  simp only [Block.slot, Extent.stop] at hstop
  obtain ⟨earlier, start, rest, hsplit, -, hstart⟩ := exists_mergeStart block page.nodes
  have hmerge := clear_mergeReleased hpage hword hblock hsplit hnodes hslot
  have hfreed := nodesAt_freedBytes hpage hword hblock
  have hbound : ∀ node ∈ page.nodes, node.address + 16 ≤ 2 ^ 64 := fun node hnode ↦ by
    have hnode' := page.ordered.within node hnode
    simp only [Node.extent, Extent.stop] at hnode'
    omega
  have hwalk : run exec (insertWalk (freedNode block).address walkFuel 0
      (load64 (freedBytes state.bytes block) page.base))
      { state with bytes := freedBytes state.bytes block } =
        some ((lastAddress (nodesBefore block page.nodes),
          headAddress (nodesAfter block page.nodes)), _) :=
    run_insertWalk hfreed (hfreed.length_lt hbound)
  have hinsert : Clear cell (insertWalk (freedNode block).address walkFuel 0
      (load64 (freedBytes state.bytes block) page.base))
      { state with bytes := freedBytes state.bytes block } :=
    clear_insertWalk hfreed ⟨hnodes, hbound⟩ 0
  have hnode : sub (block.pointer - 8) 16 = (freedNode block).address := by
    rw [sub_of_le (by omega) (by omega)]
    simp only [freedNode]
    omega
  have hspan {address : ℕ} (hlow : block.pointer - 24 ≤ address)
      (hhigh : address + 8 ≤ block.pointer) : Extent.Apart ⟨address, 8⟩ cell :=
    span_apart hslot hlow (by simp only [Block.slot]; omega)
  have hsize : Extent.Apart ⟨block.pointer - 8, 8⟩ cell := hspan (by omega) (by omega)
  have hstartspan : Extent.Apart ⟨(freedNode block).address, 8⟩ cell := by
    apply hspan
    · simp only [freedNode]
      omega
    · simp only [freedNode]
      omega
  have hnext : add (freedNode block).address 8 = (freedNode block).address + 8 :=
    add_of_lt (by simp only [freedNode]; omega)
  have hlinkspan : Extent.Apart ⟨add (freedNode block).address 8, 8⟩ cell := by
    rw [hnext]
    apply hspan
    · simp only [freedNode]
      omega
    · simp only [freedNode]
      omega
  have hbase : Extent.Apart ⟨page.base, 8⟩ cell :=
    span_apart hheader le_rfl (by simp only [Page.header]; omega)
  unfold Kernel.kfreeSmall
  simp only [sizeofHeapNode, hnode]
  refine clear_access hsize (clear_access hstartspan (clear_access hbase ?_))
  simp only [exec, hpage.words block hblock]
  refine clear_bind_of_eq hinsert hwalk ?_
  dsimp only
  rcases hstart with ⟨hbefore, rfl⟩ | hconcat
  · rw [insertedBytes, hbefore, linked_nil, ← hnext] at hmerge
    rw [hbefore, if_pos (show lastAddress [] = 0 from rfl)]
    refine clear_access hlinkspan (clear_access hbase ?_)
    exact clear_bind hmerge fun _ _ _ ↦ clear_lockRelease
  · have hmem : start ∈ page.nodes := by
      rw [← before_append_after block page.nodes, hconcat]
      simp
    have hprev := page.ordered.within start hmem
    have hprevNext : add start.address 8 = start.address + 8 :=
      add_of_lt (by have := hbound start hmem; omega)
    have hprevspan : Extent.Apart ⟨add start.address 8, 8⟩ cell :=
      node_span_apart (hnodes start hmem) (hbound start hmem) le_rfl
    have hbefore : ∀ node ∈ nodesBefore block page.nodes,
        node.address + 16 ≤ (freedNode block).address := by
      intro node hnode
      have hordered := page.ordered.insert (page.nodes_apart block hblock)
        ⟨by simp only [Block.slot]; omega, hwithin.2⟩
      have hapart := (List.pairwise_append.mp hordered.pairwise).2.2 node hnode
        (freedNode block) List.mem_cons_self
      simp only [Node.extent, Extent.stop] at hapart
      omega
    rw [insertedBytes, linked_store_comm hbefore (by simp only [freedNode]; omega), hconcat,
      linked_concat, ← hnext, ← hprevNext] at hmerge
    rw [hconcat, lastAddress_concat, if_neg (by omega)]
    refine clear_access hprevspan (clear_access hlinkspan ?_)
    exact clear_bind hmerge fun _ _ _ ↦ clear_lockRelease

/-- `kfree` of a block with frames of its own accesses the table only. -/
theorem clear_kfreeLarge {physicalFrame size : ℕ} :
    Clear cell (Kernel.kfreeLarge physicalFrame size) state := by
  have hframes : Clear cell (memoryFreeFrames physicalFrame (frameCounts size)) state :=
    clear_variable rfl <| clear_variable rfl <| clear_variable rfl <| clear_variable rfl <|
      clear_variable rfl (clear_pure true)
  rw [Kernel.kfreeLarge]
  exact clear_bind hframes fun _ _ _ ↦ clear_lockRelease

/-- No access of `kfree` meets what is apart from the heap and from the freed block. -/
theorem Represents.clear_kfree (h : Represents mapping state heap)
    (houtlying : Outlying mapping state heap cell) (hlock : state.memoryLock = 0)
    (hlive : heap.Live block) (haligned : block.pointer % 4096 ≠ 0)
    (hblock : block.cell.Apart cell)
    (hslot : ∀ page ∈ heap.pages, block ∈ page.blocks → block.slot.Apart cell) :
    Clear cell (kfree mapping.hhdmOffset block.pointer) state := by
  have hbounds : 8 ≤ block.pointer ∧ block.pointer < 2 ^ 64 ∧
      load64 state.bytes (block.pointer - 8) = block.word := by
    rcases hlive with hlarge | ⟨page, hpage, hmem⟩
    · have hpointer := (h.large block hlarge).pointer_ge
      have hcount := (h.large block hlarge).count_pos
      have hword := (h.large_facts hlarge).2.2
      exact ⟨by omega, by omega, h.words block hlarge⟩
    · have hword := (h.page_facts hpage).2.2
      have hbase := (h.page_facts hpage).1
      have hwithin := page.blocks_within block hmem
      simp only [Block.slot, Extent.stop] at hwithin
      exact ⟨by omega, by omega, (h.pages page hpage).words block hmem⟩
  have hbase : sub block.pointer 8 = block.pointer - 8 := sub_of_le hbounds.1 hbounds.2.1
  have hsize : Extent.Apart ⟨block.pointer - 8, 8⟩ cell :=
    span_apart hblock le_rfl (by simp only [Block.cell]; omega)
  refine clear_lockAcquire hlock ?_
  simp only [sizeofU64, hbase]
  refine clear_access hsize (clear_ite (fun _ ↦ clear_kfreeLarge) fun hsmall ↦ ?_)
  simp only [exec, hbounds.2.2] at hsmall ⊢
  rcases hlive with hlarge | ⟨page, hpage, hmem⟩
  · have hword := (h.large block hlarge).word_eq
    have hcount := (h.large block hlarge).count_pos
    exact absurd (show block.word > 4040 by omega) hsmall
  · have hword := (h.page_facts hpage).2.2
    have hbaseAligned := (h.page_facts hpage).1
    have hwithin := page.blocks_within block hmem
    simp only [Block.slot, Extent.stop] at hwithin
    have hvirtual : pointerFrame block.pointer = page.base :=
      pointerFrame_of_lt hbaseAligned (by omega) (by omega)
    rw [hvirtual]
    have hnodes := nodesApart_of_ordered page.ordered hword (houtlying.nodes page hpage)
    have hpageAt : PageAt ({ state with memoryLock := 1 } : AllocatorState).bytes page :=
      h.pages page hpage
    exact clear_kfreeSmall hpageAt hword hmem (houtlying.headers page hpage) hnodes.apart
      (hslot page hpage hmem)

end Kfree

end Clear

/-! ## Blocks in use -/

section Live

variable {mapping : Mapping} {state : AllocatorState} {heap : Layout} {config : HeapConfig}
  {block other : Block} {size maximum : ℕ}

/-- The cell of a live block is apart from everything that is the heap's own. -/
theorem Represents.outlying (h : Represents mapping state heap) (hlive : heap.Live block) :
    Outlying mapping state heap block.cell where
  headers _ hpage := (h.cell_apart_header hlive hpage).symm
  nodes _ hpage _ hnode := (h.cell_apart_node hlive hpage hnode).symm
  free _ _ hcount hfree := (h.cell_apart_free hlive hcount hfree).symm

/-- No access of a granted `kmalloc` meets a live block. -/
theorem Serves.clear_kmalloc (h : Serves mapping maximum config heap) (hlive : block ∈ config.live)
    (hpos : 0 < size) (hsize : size + 4135 < 2 ^ 64)
    (hgranted : Granted size config.state) :
    Clear block.cell (kmalloc mapping.hhdmOffset size) config.state :=
  h.represents.clear_kmalloc (h.represents.outlying ((h.live_iff block).mp hlive)) h.lock_eq hpos
    (fun _ ↦ (frameCounts_bounds hsize).1) hgranted

/-- No access of `kfree` meets a live block that is not freed. -/
theorem Serves.clear_kfree (h : Serves mapping maximum config heap) (hlive : block ∈ config.live)
    (hother : other ∈ config.live) (hne : other ≠ block) :
    Clear block.cell (kfree mapping.hhdmOffset other.pointer) config.state := by
  have hblock := (h.live_iff block).mp hlive
  have hfreed := (h.live_iff other).mp hother
  refine h.represents.clear_kfree (h.represents.outlying hblock) h.lock_eq hfreed
    (h.represents.pointer_not_aligned hfreed (h.sizes other hother).1)
    (h.represents.cells_apart hfreed hblock hne) fun page hpage hmem ↦ ?_
  exact (h.represents.cell_apart_slot hblock hpage hmem hne.symm).symm

/-- In every state of every run, neither `kmalloc` nor `kfree` reads or writes a byte of a live
block, except `kfree` of that block. -/
theorem accesses_apart_live {hhdmOffset : ℕ} {start final : HeapConfig}
    {taken : List (Taken HeapConfig HeapEvent)} (hboot : Booted hhdmOffset start)
    (hentries : start.freelist.cursor ≤ 127) (hrun : Run (HeapStep hhdmOffset) start taken final)
    (hserved : ∀ t ∈ taken, Served maximumSize t)
    (hcursor : ∀ t ∈ taken, t.after.freelist.cursor ≤ 127) : ∀ block ∈ final.live,
      (∀ size, 1 ≤ size → size ≤ maximumSize → Granted size final.state →
        ∀ operation ∈ accesses exec (kmalloc hhdmOffset size) final.state,
          operation.span.Apart block.cell) ∧
      ∀ other ∈ final.live, other ≠ block →
        ∀ operation ∈ accesses exec (kfree hhdmOffset other.pointer) final.state,
          operation.span.Apart block.cell := by
  intro block hblock
  obtain ⟨⟨heap, hheap⟩, -⟩ := serves_of_run hboot maximumSize_lt hentries hrun hserved hcursor
  constructor
  · intro size hpos hsize hgranted
    have hbound : size + 4135 < 2 ^ 64 := lt_of_le_of_lt (by omega) maximumSize_lt
    exact hheap.clear_kmalloc hblock hpos hbound hgranted
  · intro other hother hne
    exact hheap.clear_kfree hblock hother hne

/-- The second `kmalloc` after boot reads and writes nothing of the first block. -/
theorem accesses_apart_live_twoBlocks : ∃ calls : TwoCalls,
    ∀ operation ∈ accesses exec (kmalloc 0 64) calls.before.state,
      operation.span.Apart (givenBlock 64 calls.first calls.before.state).cell := by
  obtain ⟨calls⟩ := exists_twoCalls
  have hmem : givenBlock 64 calls.first calls.before.state ∈ calls.before.live := by
    rw [calls.before_live]
    exact List.mem_singleton_self _
  have hapart := accesses_apart_live booted_bootedHeap (by decide) (Run.nil.snoc _ calls.call)
    (fun t ht ↦ by
      rw [List.mem_singleton.mp ht]
      exact calls.served.mono (by norm_num [maximumSize]))
    (fun t ht ↦ by
      rw [List.mem_singleton.mp ht]
      exact calls.before_cursor.trans_le (by norm_num))
  exact ⟨calls, (hapart _ hmem).1 64 (by norm_num) (by norm_num [maximumSize])
    calls.served_again.2.2⟩

end Live

end SideHOS.Heap
