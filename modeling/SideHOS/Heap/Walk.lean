import SideHOS.Heap.FreeNodes
import SideHOS.Kernel.Heap
import SideHOS.Linked.Path

/-!
# The loops of the heap along linked lists

`NodesAt` says that a free list in memory consists of the given nodes.  Each of the loops of
`kmalloc` and `kfree`, run on such a list, ends with what it computes on the nodes; the merge loop
also leaves `mergeFrom` in memory and writes to node headers only.
-/

namespace SideHOS.Heap

open Kernel Linked Machine Machine.Word64 Machine.ByteMemory Sharing Sharing.Program

def nodeNext (bytes : Memory) (node : ℕ) : ℕ := load64 bytes (add node 8)

def pageNext (bytes : Memory) (page : ℕ) : ℕ := load64 bytes (add page 24)

def pageLargest (bytes : Memory) (page : ℕ) : ℕ := load64 bytes (add page 16)

theorem run_loadPageNext {α : Type} (page : ℕ) (next : ℕ → Code α) (state : AllocatorState) :
    run exec (loadPageNext page >>= next) state =
      run exec (next (pageNext state.bytes page)) state := rfl

theorem run_loadPageLargest {α : Type} (page : ℕ) (next : ℕ → Code α) (state : AllocatorState) :
    run exec (loadPageLargest page >>= next) state =
      run exec (next (pageLargest state.bytes page)) state := rfl

def Node.header (node : Node) : Extent := ⟨node.address, 16⟩

/-- From `head` on, memory holds these nodes, linked in this order, and then `stop`. -/
structure NodesAt (bytes : Memory) (head : ℕ) (nodes : List Node) (stop : ℕ) : Prop where
  path : Path 0 (nodeNext bytes) head (nodes.map Node.address) stop
  lengths : ∀ node ∈ nodes, load64 bytes node.address = node.length

section NodesAt

variable {bytes after : Memory} {head stop : ℕ} {nodes front back : List Node} {node : Node}

theorem nodesAt_nil : NodesAt bytes head [] stop ↔ head = stop :=
  ⟨fun h ↦ h.path, fun h ↦ ⟨h, by simp⟩⟩

theorem nodesAt_cons : NodesAt bytes head (node :: nodes) stop ↔
    head = node.address ∧ node.address ≠ 0 ∧ load64 bytes node.address = node.length ∧
      NodesAt bytes (nodeNext bytes node.address) nodes stop := by
  constructor
  · rintro ⟨⟨hhead, hne, hpath⟩, hlengths⟩
    rw [List.forall_mem_cons] at hlengths
    exact ⟨hhead, hne, hlengths.1, hpath, hlengths.2⟩
  · rintro ⟨hhead, hne, hlength, hpath, hlengths⟩
    exact ⟨⟨hhead, hne, hpath⟩, List.forall_mem_cons.mpr ⟨hlength, hlengths⟩⟩

theorem nodesAt_append : NodesAt bytes head (front ++ back) stop ↔
    ∃ middle, NodesAt bytes head front middle ∧ NodesAt bytes middle back stop := by
  constructor
  · rintro ⟨hpath, hlengths⟩
    rw [List.map_append, path_append] at hpath
    rw [List.forall_mem_append] at hlengths
    obtain ⟨middle, hfront, hback⟩ := hpath
    exact ⟨middle, ⟨hfront, hlengths.1⟩, hback, hlengths.2⟩
  · rintro ⟨middle, hfront, hback⟩
    refine ⟨?_, List.forall_mem_append.mpr ⟨hfront.lengths, hback.lengths⟩⟩
    rw [List.map_append, path_append]
    exact ⟨middle, hfront.path, hback.path⟩

/-- A list is not changed by writes outside its headers. -/
theorem NodesAt.congr (h : NodesAt bytes head nodes stop)
    (hword : ∀ node ∈ nodes, node.address + 16 ≤ 2 ^ 64)
    (hagree : ∀ node ∈ nodes, ∀ x, node.header.Holds x → after x = bytes x) :
    NodesAt after head nodes stop := by
  have hload (node : Node) (hnode : node ∈ nodes) (offset : ℕ) (hoffset : offset + 8 ≤ 16) :
      load64 after (node.address + offset) = load64 bytes (node.address + offset) :=
    load64_congr fun x hlow hhigh ↦ hagree node hnode x
      ⟨by simp only [Node.header]; omega, by simp only [Node.header, Extent.stop]; omega⟩
  refine ⟨h.path.congr fun cell hcell ↦ ?_, fun node hnode ↦ ?_⟩
  · obtain ⟨node, hnode, rfl⟩ := List.mem_map.mp hcell
    have hbound := hword node hnode
    unfold nodeNext
    rw [add_of_lt (by omega)]
    exact hload node hnode 8 le_rfl
  · rw [← h.lengths node hnode]
    exact hload node hnode 0 (by norm_num)

theorem NodesAt.length_lt (h : NodesAt bytes head nodes 0)
    (hword : ∀ node ∈ nodes, node.address + 16 ≤ 2 ^ 64) : nodes.length < walkFuel := by
  have hcells : ∀ cell ∈ nodes.map Node.address, cell < 2 ^ 64 := by
    intro cell hcell
    obtain ⟨node, hnode, rfl⟩ := List.mem_map.mp hcell
    have hbound := hword node hnode
    omega
  have hlength := Chain.length_lt h.path hcells (by norm_num)
  rwa [List.length_map, ← walkFuel] at hlength

end NodesAt

/-- A loop along a null-terminated list that stops at the first cell failing the test. -/
theorem run_walk {α : Type} (loop : ℕ → ℕ → ℕ → Code α) (out : ℕ → ℕ → Code α) (test : ℕ → Bool)
    (prev : ℕ) {next : ℕ → ℕ} {state : AllocatorState}
    (hloop : ∀ fuel prev cursor, run exec (loop (fuel + 1) prev cursor) state =
      if cursor = 0 then run exec (out prev 0) state
      else if test cursor then run exec (loop fuel cursor (next cursor)) state
      else run exec (out prev cursor) state)
    {head fuel : ℕ} {cells : List ℕ} (hchain : Chain 0 next head cells)
    (hfuel : cells.length < fuel) :
    run exec (loop fuel prev head) state =
      run exec (out ((cells.takeWhile test).getLast?.getD prev)
        ((cells.dropWhile test).headD 0)) state := by
  induction cells generalizing head prev fuel with
  | nil =>
    obtain rfl : head = 0 := hchain
    obtain ⟨fuel, rfl⟩ : ∃ k, fuel = k + 1 := ⟨fuel - 1, by simp at hfuel; omega⟩
    rw [hloop, if_pos rfl]
    rfl
  | cons cell cells ih =>
    obtain ⟨rfl, hne, hrest⟩ := hchain
    rw [List.length_cons] at hfuel
    obtain ⟨fuel, rfl⟩ : ∃ k, fuel = k + 1 := ⟨fuel - 1, by omega⟩
    rw [hloop, if_neg hne]
    by_cases htest : test head = true
    · rw [if_pos htest, ih head hrest (by omega)]
      simp [htest, List.getLast?_cons]
    · rw [if_neg htest]
      simp [htest]

theorem takeWhile_split {α : Type} {test : α → Bool} {front back : List α} {cell : α}
    (hfront : ∀ other ∈ front, test other = true) (hcell : ¬ test cell = true) :
    (front ++ cell :: back).takeWhile test = front ∧
      (front ++ cell :: back).dropWhile test = cell :: back := by
  rw [List.takeWhile_append_of_pos hfront, List.dropWhile_append_of_pos hfront]
  simp [hcell]

theorem takeWhile_all {α : Type} {test : α → Bool} {cells : List α}
    (h : ∀ cell ∈ cells, test cell = true) :
    cells.takeWhile test = cells ∧ cells.dropWhile test = [] :=
  ⟨List.takeWhile_eq_self_iff.mpr h, List.dropWhile_eq_nil_iff.mpr h⟩

def lastAddress (nodes : List Node) : ℕ := (nodes.map Node.address).getLast?.getD 0

/-- The address of the first node, or `NULL`. -/
def headAddress (nodes : List Node) : ℕ := (nodes.map Node.address).headD 0

section Loops

variable {state : AllocatorState} {head totalSize fuel : ℕ} {nodes front back : List Node}
  {node : Node} {cells : List ℕ}

/-- The page walk answers the first page whose `largest` is large enough. -/
theorem run_pageWalk (hchain : Chain 0 (pageNext state.bytes) head cells)
    (hfuel : cells.length < fuel) :
    run exec (pageWalk totalSize fuel head) state =
      some ((cells.dropWhile fun page ↦
        decide (pageLargest state.bytes page < totalSize)).headD 0, state) :=
  run_walk (fun fuel _ page ↦ pageWalk totalSize fuel page) (fun _ page ↦ pure page)
    (fun page ↦ decide (pageLargest state.bytes page < totalSize)) 0 (fun fuel _ page ↦ by
      simp only [pageWalk, run_loadPageLargest, run_loadPageNext, run_ite, run_pure,
        decide_eq_true_eq]) hchain hfuel

/-- The node search on any null-terminated list. -/
theorem run_nodeSearch (hchain : Chain 0 (nodeNext state.bytes) head cells)
    (hfuel : cells.length < fuel) :
    run exec (nodeSearch totalSize fuel 0 head) state =
      some (((cells.takeWhile fun cell ↦
          decide (load64 state.bytes cell < totalSize)).getLast?.getD 0,
        (cells.dropWhile fun cell ↦
          decide (load64 state.bytes cell < totalSize)).headD 0), state) :=
  run_walk (nodeSearch totalSize) (fun prev node ↦ pure (prev, node))
    (fun cell ↦ decide (load64 state.bytes cell < totalSize)) 0 (fun fuel prev node ↦ by
      simp only [nodeSearch, loadNodeLength, loadNodeNext, nodeNext, run_ite, run_load, run_pure,
        decide_eq_true_eq]) hchain hfuel

/-- The node search answers the first node that is long enough and the one before it. -/
theorem run_nodeSearch_fit (hnodes : NodesAt state.bytes head (front ++ node :: back) 0)
    (hfuel : (front ++ node :: back).length < fuel)
    (hfront : ∀ other ∈ front, other.length < totalSize) (hfit : totalSize ≤ node.length) :
    run exec (nodeSearch totalSize fuel 0 head) state =
      some ((lastAddress front, node.address), state) := by
  have hsplit : (front ++ node :: back).map Node.address =
      front.map Node.address ++ node.address :: back.map Node.address := by simp
  have hlengths := hnodes.lengths
  have hbefore : ∀ cell ∈ front.map Node.address,
      decide (load64 state.bytes cell < totalSize) = true := by
    intro cell hcell
    obtain ⟨other, hother, rfl⟩ := List.mem_map.mp hcell
    rw [hlengths other (by simp [hother])]
    exact decide_eq_true (hfront other hother)
  have hstop : ¬ decide (load64 state.bytes node.address < totalSize) = true := by
    rw [hlengths node (by simp), decide_eq_true_eq]
    omega
  rw [run_nodeSearch hnodes.path (by rwa [List.length_map]), hsplit,
    (takeWhile_split hbefore hstop).1, (takeWhile_split hbefore hstop).2]
  rfl

/-- The walk to the insert position. -/
theorem run_insertWalk {address : ℕ} (hnodes : NodesAt state.bytes head nodes 0)
    (hfuel : nodes.length < fuel) :
    run exec (insertWalk address fuel 0 head) state =
      some ((lastAddress (nodes.takeWhile fun node ↦ decide (node.address < address)),
        headAddress (nodes.dropWhile fun node ↦ decide (node.address < address))), state) := by
  have hwalk : run exec (insertWalk address fuel 0 head) state = _ :=
    run_walk (insertWalk address) (fun prev cursor ↦ pure (prev, cursor))
      (fun cell ↦ decide (cell < address)) 0 (fun fuel prev cursor ↦ by
        simp only [insertWalk, loadNodeNext, nodeNext, run_ite, run_load, run_pure,
        decide_eq_true_eq]) hnodes.path (by rwa [List.length_map])
  rw [hwalk, List.takeWhile_map, List.dropWhile_map]
  rfl

/-- The scan for the largest length. -/
theorem run_maximumScan {maximum : ℕ} (hnodes : NodesAt state.bytes head nodes 0)
    (hfuel : nodes.length < fuel) :
    run exec (maximumScan fuel head maximum) state = some (maxLength maximum nodes, state) := by
  induction nodes generalizing head maximum fuel with
  | nil =>
    obtain rfl : head = 0 := nodesAt_nil.mp hnodes
    obtain ⟨fuel, rfl⟩ : ∃ k, fuel = k + 1 := ⟨fuel - 1, by simp at hfuel; omega⟩
    rfl
  | cons node nodes ih =>
    obtain ⟨rfl, hne, hlength, hrest⟩ := nodesAt_cons.mp hnodes
    rw [List.length_cons] at hfuel
    obtain ⟨fuel, rfl⟩ : ∃ k, fuel = k + 1 := ⟨fuel - 1, by omega⟩
    have hnext (value : ℕ) : run exec (maximumScan fuel (nodeNext state.bytes node.address) value)
        state = some (maxLength value nodes, state) := ih hrest (by omega)
    unfold nodeNext at hnext
    simp only [maximumScan, loadNodeLength, loadNodeNext, run_ite, run_load, if_neg hne, hlength,
      hnext, maxLength]
    split <;> rfl

end Loops

theorem Ordered.tail {low high : ℕ} {node : Node} {nodes : List Node}
    (h : Ordered low high (node :: nodes)) : Ordered low high nodes :=
  ⟨h.pairwise.of_cons, fun other hother ↦ h.within other (List.mem_cons_of_mem _ hother)⟩

/-- A header is apart from those of all later nodes. -/
theorem Ordered.not_holds {low high x : ℕ} {node : Node} {nodes : List Node}
    (h : Ordered low high (node :: nodes)) (hx : node.header.Holds x) :
    ∀ other ∈ nodes, ¬ other.header.Holds x := by
  intro other hother hholds
  have hstop := (List.pairwise_cons.mp h.pairwise).1 other hother
  simp only [Node.header, Node.extent, Extent.Holds, Extent.stop] at hx hholds hstop
  omega

/-- Memory after the merge loop merged a node with its successor. -/
def mergeBytes (bytes : Memory) (node next : Node) : Memory :=
  store64
    (store64 (store64 bytes node.address (node.length + 16)) node.address
      (node.length + 16 + next.length))
    (node.address + 8) (nodeNext bytes next.address)

theorem mergeBytes_of_outside {bytes : Memory} {node next : Node} {x : ℕ}
    (h : ¬ node.header.Holds x) : mergeBytes bytes node next x = bytes x := by
  simp only [Node.header, Extent.Holds, Extent.stop] at h
  unfold mergeBytes
  rw [store64_of_outside (by omega), store64_of_outside (by omega), store64_of_outside (by omega)]

/-- One turn of the merge loop at a node with a successor. -/
theorem run_mergeLoop_cons {low high fuel : ℕ} {state : AllocatorState} {node next : Node}
    {rest : List Node} (hnodes : NodesAt state.bytes node.address (node :: next :: rest) 0)
    (hordered : Ordered low high (node :: next :: rest)) (hword : high ≤ 2 ^ 64) :
    run exec (mergeLoop (fuel + 1) node.address) state =
      if Mergeable node next then
        run exec (mergeLoop fuel node.address)
          { state with bytes := mergeBytes state.bytes node next }
      else run exec (mergeLoop fuel next.address) state := by
  obtain ⟨-, hne, hlength, hrest⟩ := nodesAt_cons.mp hnodes
  obtain ⟨hnext, hnextne, hnextlength, -⟩ := nodesAt_cons.mp hrest
  have hstop := (List.pairwise_cons.mp hordered.pairwise).1 next List.mem_cons_self
  have hend := (hordered.within next (by simp)).2
  simp only [Node.extent, Extent.stop] at hstop hend
  have hsum :
      add (add (add node.address 16) node.length) 8 = node.address + 16 + node.length + 8 := by
    rw [add_of_lt (show node.address + 16 < 2 ^ 64 by omega),
      add_of_lt (show node.address + 16 + node.length < 2 ^ 64 by omega),
      add_of_lt (show node.address + 16 + node.length + 8 < 2 ^ 64 by omega)]
  have height : add node.address 8 = node.address + 8 := add_of_lt (by omega)
  have hnexteight : add next.address 8 = next.address + 8 := add_of_lt (by omega)
  have hfirst : add node.length 16 = node.length + 16 := add_of_lt (by omega)
  have hsecond : add (node.length + 16) next.length = node.length + 16 + next.length :=
    add_of_lt (by omega)
  unfold nodeNext at hnext
  rw [height] at hnext
  have htest : node.address + 16 + node.length + 8 = next.address ↔ Mergeable node next := by
    simp only [Mergeable, Node.extent, Extent.stop, add_assoc]
  simp only [mergeLoop, loadNodeNext, loadNodeLength, storeNodeLength, storeNodeNext, run_ite,
    run_load, run_store, if_neg hne, height, hnext, if_neg hnextne, hlength, sizeofHeapNode,
    sizeofU64, hsum, htest]
  simp (disch := omega) only [load64_store64_same, load64_store64_of_apart, hfirst, hnext,
    hnextlength, hsecond, hnexteight, mergeBytes, nodeNext]

/-- After merging two neighbours, memory holds the list with the merged node. -/
theorem nodesAt_mergeBytes {low high : ℕ} {bytes : Memory} {node next : Node} {rest : List Node}
    (hnodes : NodesAt bytes node.address (node :: next :: rest) 0)
    (hordered : Ordered low high (node :: next :: rest)) (hword : high ≤ 2 ^ 64) :
    NodesAt (mergeBytes bytes node next) node.address (node.merge next :: rest) 0 := by
  obtain ⟨-, hne, -, hrest⟩ := nodesAt_cons.mp hnodes
  obtain ⟨-, -, -, htail⟩ := nodesAt_cons.mp hrest
  have hstop := (List.pairwise_cons.mp hordered.pairwise).1 next List.mem_cons_self
  have hend := (hordered.within next (by simp)).2
  simp only [Node.extent, Extent.stop] at hstop hend
  have hmoved : nodeNext (mergeBytes bytes node next) node.address =
      nodeNext bytes next.address := by
    have hword : nodeNext bytes next.address < 2 ^ 64 := load64_lt _ _
    change load64 (mergeBytes bytes node next) (add node.address 8) = _
    rw [add_of_lt (by omega), mergeBytes, load64_store64_same hword]
  have hlonger : load64 (mergeBytes bytes node next) node.address = (node.merge next).length := by
    unfold mergeBytes
    rw [load64_store64_of_apart (by omega), load64_store64_same (by omega)]
    rfl
  refine nodesAt_cons.mpr ⟨rfl, hne, hlonger, ?_⟩
  rw [show (node.merge next).address = node.address from rfl, hmoved]
  refine htail.congr (fun other hother ↦ ?_) fun other hother x hx ↦ ?_
  · have hwithin := (hordered.within other (by simp [hother])).2
    simp only [Node.extent, Extent.stop] at hwithin
    omega
  · exact mergeBytes_of_outside fun hnode ↦
      hordered.not_holds hnode other (List.mem_cons_of_mem _ hother) hx

/-- From a node on, the merge loop leaves the merged list and writes to the headers only. -/
theorem run_mergeLoop {low high fuel : ℕ} {state : AllocatorState} {node : Node}
    {nodes : List Node} (hnodes : NodesAt state.bytes node.address (node :: nodes) 0)
    (hordered : Ordered low high (node :: nodes)) (hword : high ≤ 2 ^ 64)
    (hfuel : nodes.length < fuel) :
    ∃ bytes,
      run exec (mergeLoop fuel node.address) state = some ((), { state with bytes := bytes }) ∧
      NodesAt bytes node.address (mergeFrom node nodes) 0 ∧
      ∀ x, (∀ other ∈ node :: nodes, ¬ other.header.Holds x) → bytes x = state.bytes x := by
  induction nodes generalizing node state fuel with
  | nil =>
    obtain ⟨-, hne, -, hrest⟩ := nodesAt_cons.mp hnodes
    have hnext : load64 state.bytes (add node.address 8) = 0 := nodesAt_nil.mp hrest
    obtain ⟨fuel, rfl⟩ : ∃ k, fuel = k + 1 := ⟨fuel - 1, by simp at hfuel; omega⟩
    refine ⟨state.bytes, ?_, hnodes, fun _ _ ↦ rfl⟩
    simp only [mergeLoop, loadNodeNext, run_load, if_neg hne, hnext, if_true]
    rfl
  | cons next rest ih =>
    rw [List.length_cons] at hfuel
    obtain ⟨fuel, rfl⟩ : ∃ k, fuel = k + 1 := ⟨fuel - 1, by omega⟩
    obtain ⟨-, hne, hlength, hrest⟩ := nodesAt_cons.mp hnodes
    have hnext := (nodesAt_cons.mp hrest).1
    rw [run_mergeLoop_cons hnodes hordered hword, mergeFrom]
    have hbound := hordered.within node List.mem_cons_self
    simp only [Node.extent, Extent.stop] at hbound
    split_ifs with hmergeable
    · have hstep := hordered.mergeStep (MergeStep.intro [] node next rest hmergeable)
      obtain ⟨bytes, hrun, hmerged, hframe⟩ :=
        @ih fuel { state with bytes := mergeBytes state.bytes node next } (node.merge next)
          (nodesAt_mergeBytes hnodes hordered hword) hstep (by omega)
      refine ⟨bytes, hrun, hmerged, fun x hx ↦ ?_⟩
      simp only [List.forall_mem_cons] at hx
      rw [hframe x (List.forall_mem_cons.mpr ⟨hx.1, hx.2.2⟩)]
      exact mergeBytes_of_outside hx.1
    · rw [hnext] at hrest
      obtain ⟨bytes, hrun, hmerged, hframe⟩ := ih hrest hordered.tail
        (show rest.length < fuel by omega)
      refine ⟨bytes, hrun, ?_, fun x hx ↦ hframe x (List.forall_mem_cons.mp hx).2⟩
      have hsame (x : ℕ) (hx : node.header.Holds x) : bytes x = state.bytes x :=
        hframe x (hordered.not_holds hx)
      have hsingle : NodesAt bytes node.address [node] next.address := by
        have hold : NodesAt state.bytes node.address [node] next.address :=
          nodesAt_cons.mpr ⟨rfl, hne, hlength, nodesAt_nil.mpr hnext⟩
        exact hold.congr (by simp; omega) (by simpa using hsame)
      exact nodesAt_append.mpr ⟨next.address, hsingle, hmerged⟩

end SideHOS.Heap
