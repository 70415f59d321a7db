import SideHOS.Heap.Page
import SideHOS.Heap.Walk

/-!
# Carving and releasing in memory

`PageAt` says that memory represents a heap page.  On a represented page the part of `kmalloc`
that carves a block and the part of `kfree` that takes it back leave memory that represents the
page after `carve` and after `release`, and they write to the page header, to free nodes and to
the freed block only.
-/

namespace SideHOS.Heap

open Kernel Linked Machine Machine.Word64 Machine.ByteMemory Sharing Sharing.Program

structure PageAt (bytes : Memory) (page : Page) : Prop where
  nodes : NodesAt bytes (load64 bytes page.base) page.nodes 0
  largest : load64 bytes (page.base + 16) = page.largest
  words : ∀ block ∈ page.blocks, load64 bytes (block.pointer - 8) = block.word

/-! ## Redirecting a list -/

/-- Memory after the link behind `front`, or the page's list head, was set. -/
def linked (bytes : Memory) (page : ℕ) (front : List Node) (replacement : ℕ) : Memory :=
  match front.getLast? with
  | none => store64 bytes page replacement
  | some prev => store64 bytes (prev.address + 8) replacement

theorem linked_nil (bytes : Memory) (page replacement : ℕ) :
    linked bytes page [] replacement = store64 bytes page replacement := rfl

theorem linked_concat (bytes : Memory) (page replacement : ℕ) (earlier : List Node) (prev : Node) :
    linked bytes page (earlier ++ [prev]) replacement =
      store64 bytes (prev.address + 8) replacement := by
  simp [linked]

theorem lastAddress_concat (earlier : List Node) (prev : Node) :
    lastAddress (earlier ++ [prev]) = prev.address := by
  simp [lastAddress]

section Linked

variable {bytes : Memory} {page replacement middle low high x : ℕ} {front tail : List Node}

theorem linked_of_outside (hpage : ¬ Extent.Holds ⟨page, 8⟩ x)
    (hfront : ∀ node ∈ front, ¬ node.header.Holds x) :
    linked bytes page front replacement x = bytes x := by
  rcases List.eq_nil_or_concat front with rfl | ⟨earlier, prev, rfl⟩
  · simp only [Extent.Holds, Extent.stop] at hpage
    exact store64_of_outside (by omega)
  · rw [List.concat_eq_append] at hfront ⊢
    have hprev := hfront prev (by simp)
    simp only [Node.header, Extent.Holds, Extent.stop] at hprev
    rw [linked_concat]
    exact store64_of_outside (by omega)

/-- Redirecting the link behind `front` to another list appends that list to `front`. -/
theorem nodesAt_linked (hfront : NodesAt bytes (load64 bytes page) front middle)
    (htail : NodesAt bytes replacement tail 0) (hordered : Ordered low high (front ++ tail))
    (hpage : page + 8 ≤ low) (hword : high ≤ 2 ^ 64) (hreplacement : replacement < 2 ^ 64) :
    NodesAt (linked bytes page front replacement)
      (load64 (linked bytes page front replacement) page) (front ++ tail) 0 := by
  have hbound (node : Node) (hnode : node ∈ front ++ tail) :
      low ≤ node.address ∧ node.address + 16 ≤ 2 ^ 64 := by
    have hwithin := hordered.within node hnode
    simp only [Node.extent, Extent.stop] at hwithin
    omega
  have htail' : NodesAt (linked bytes page front replacement) replacement tail 0 := by
    refine htail.congr (fun node hnode ↦ (hbound node (List.mem_append_right _ hnode)).2)
      fun node hnode x hx ↦ linked_of_outside ?_ fun other hother hholds ↦ ?_
    · have hlow := (hbound node (List.mem_append_right _ hnode)).1
      simp only [Node.header, Extent.Holds, Extent.stop] at hx ⊢
      omega
    · have hstop := (List.pairwise_append.mp hordered.pairwise).2.2 other hother node hnode
      simp only [Node.header, Node.extent, Extent.Holds, Extent.stop] at hx hholds hstop
      omega
  rcases List.eq_nil_or_concat front with rfl | ⟨earlier, prev, rfl⟩
  · rw [List.nil_append]
    rw [linked_nil] at htail' ⊢
    rwa [load64_store64_same hreplacement]
  · rw [List.concat_eq_append] at hfront hordered hbound htail' ⊢
    rw [linked_concat] at htail' ⊢
    have hprev := hbound prev (by simp)
    have hearlier (node : Node) (hnode : node ∈ earlier) : node.address + 16 ≤ prev.address := by
      have hpairwise := (List.pairwise_append.mp hordered.pairwise).1
      have hstop := (List.pairwise_append.mp hpairwise).2.2 node hnode prev (by simp)
      simp only [Node.extent, Extent.stop] at hstop
      omega
    have hnext : add prev.address 8 = prev.address + 8 := add_of_lt (by omega)
    refine nodesAt_append.mpr ⟨replacement, ⟨?_, fun node hnode ↦ ?_⟩, htail'⟩
    · have hpath := hfront.path
      rw [List.map_append, List.map_singleton] at hpath ⊢
      rw [load64_store64_of_apart (by omega)]
      refine hpath.redirect (fun cell hcell ↦ ?_) ?_
      · obtain ⟨node, hnode, rfl⟩ := List.mem_map.mp hcell
        have hapart := hearlier node hnode
        have hnode' : add node.address 8 = node.address + 8 := add_of_lt (by omega)
        simp only [nodeNext, hnode']
        exact load64_store64_of_apart (by omega)
      · simp only [nodeNext, hnext]
        exact load64_store64_same hreplacement
    · rw [← hfront.lengths node hnode]
      rcases List.mem_append.mp hnode with hnode | hnode
      · have hapart := hearlier node hnode
        exact load64_store64_of_apart (by omega)
      · rw [List.mem_singleton.mp hnode]
        exact load64_store64_of_apart (by omega)

end Linked

/-! ## Carving -/

section Carve

variable {state : AllocatorState} {bytes : Memory} {page : Page} {front back : List Node}
  {node : Node} {size x : ℕ}

/-- What the list continues with in place of the node. -/
def replacement (bytes : Memory) (node : Node) (size : ℕ) : ℕ :=
  if remaining node size < 16 then nodeNext bytes node.address else node.address + 24 + size

/-- Memory after `kmalloc` wrote the size word and split the node. -/
def cutBytes (bytes : Memory) (node : Node) (size : ℕ) : Memory :=
  let withSize := store64 bytes (node.address + 16) size
  if remaining node size < 16 then store64 withSize (node.address + 16) (size + remaining node size)
  else
    store64 (store64 withSize (node.address + 24 + size) (remaining node size - 16))
      (node.address + 24 + size + 8) (nodeNext bytes node.address)

theorem cutBytes_of_outside (hfit : size + 8 ≤ node.length) (hx : ¬ node.extent.Holds x) :
    cutBytes bytes node size x = bytes x := by
  simp only [Node.extent, Extent.Holds, Extent.stop] at hx
  unfold cutBytes
  split_ifs with hsplit
  · rw [store64_of_outside (by omega), store64_of_outside (by omega)]
  · simp only [remaining] at hsplit
    rw [store64_of_outside (by omega), store64_of_outside (by omega), store64_of_outside (by omega)]

theorem cutBytes_word (hfit : size + 8 ≤ node.length) (hlength : node.length < 2 ^ 64) :
    load64 (cutBytes bytes node size) (node.address + 16) = (carvedBlock node size).word := by
  unfold cutBytes carvedBlock
  dsimp only
  split_ifs with hsplit
  · exact load64_store64_same (by unfold remaining; omega)
  · rw [load64_store64_of_apart (by omega), load64_store64_of_apart (by omega),
      load64_store64_same (by omega)]

/-- After the cut, the list from the replacement on is what is left of the node and its tail. -/
theorem nodesAt_cut {low high : ℕ} (hback : NodesAt bytes (nodeNext bytes node.address) back 0)
    (hfit : size + 8 ≤ node.length) (hordered : Ordered low high (node :: back))
    (hword : high ≤ 2 ^ 64) :
    NodesAt (cutBytes bytes node size) (replacement bytes node size)
      (carvedRest node size ++ back) 0 := by
  have hnode := hordered.within node List.mem_cons_self
  have hback' : NodesAt (cutBytes bytes node size) (nodeNext bytes node.address) back 0 := by
    refine hback.congr (fun other hother ↦ ?_) fun other hother x hx ↦
      cutBytes_of_outside hfit fun hholds ↦ ?_
    · have hwithin := hordered.within other (List.mem_cons_of_mem _ hother)
      simp only [Node.extent, Extent.stop] at hwithin
      omega
    · have hstop := (List.pairwise_cons.mp hordered.pairwise).1 other hother
      simp only [Node.header, Extent.Holds, Extent.stop] at hx hholds hstop
      omega
  unfold carvedRest replacement
  split_ifs with hsplit
  · exact hback'
  · simp only [Node.extent, Extent.stop] at hnode
    have hlength : load64 (cutBytes bytes node size) (node.address + 24 + size) =
        remaining node size - 16 := by
      unfold cutBytes
      rw [if_neg hsplit, load64_store64_of_apart (by omega), load64_store64_same ?_]
      simp only [remaining]
      omega
    have hnext : nodeNext (cutBytes bytes node size) (node.address + 24 + size) =
        nodeNext bytes node.address := by
      have hvalue : nodeNext bytes node.address < 2 ^ 64 := load64_lt _ _
      have hadd : add (node.address + 24 + size) 8 = node.address + 24 + size + 8 :=
        add_of_lt (by simp only [remaining] at hsplit; omega)
      change load64 _ (add (node.address + 24 + size) 8) = _
      rw [hadd, cutBytes, if_neg hsplit, load64_store64_same hvalue]
    refine nodesAt_cons.mpr ⟨rfl, by simp, hlength, ?_⟩
    rwa [hnext]

/-- The list after the cut, once the link to the node leads to its replacement. -/
theorem nodesAt_carve (hpage : PageAt bytes page) (hword : page.base + 4096 ≤ 2 ^ 64)
    (hfit : page.Fit front node back size) :
    NodesAt (linked (cutBytes bytes node size) page.base front (replacement bytes node size))
      (load64 (linked (cutBytes bytes node size) page.base front (replacement bytes node size))
        page.base) (front ++ carvedRest node size ++ back) 0 := by
  have hordered := page.ordered
  have hnodes := hpage.nodes
  rw [hfit.nodes_eq] at hordered hnodes
  obtain ⟨middle, hfront, hrest⟩ := nodesAt_append.mp hnodes
  obtain ⟨rfl, -, -, hback⟩ := nodesAt_cons.mp hrest
  have hnode := hordered.within node (by simp)
  have hsuffix : Ordered (page.base + 32) (page.base + 4096) (node :: back) :=
    ⟨(List.pairwise_append.mp hordered.pairwise).2.1, fun other hother ↦
      hordered.within other (List.mem_append_right _ hother)⟩
  have hfront' : NodesAt (cutBytes bytes node size) (load64 (cutBytes bytes node size) page.base)
      front node.address := by
    have hhead : load64 (cutBytes bytes node size) page.base = load64 bytes page.base :=
      load64_congr fun x _ _ ↦ cutBytes_of_outside hfit.le_length fun hholds ↦ by
        simp only [Extent.Holds, Node.extent] at hholds hnode
        omega
    rw [hhead]
    refine hfront.congr (fun other hother ↦ ?_) fun other hother x hx ↦
      cutBytes_of_outside hfit.le_length fun hholds ↦ ?_
    · have hwithin := hordered.within other (by simp [hother])
      simp only [Node.extent, Extent.stop] at hwithin
      omega
    · have hstop := (List.pairwise_append.mp hordered.pairwise).2.2 other hother node (by simp)
      simp only [Node.header, Node.extent, Extent.Holds, Extent.stop] at hx hholds hstop
      omega
  have hreplacement : replacement bytes node size < 2 ^ 64 := by
    have hlength := hfit.le_length
    simp only [Node.extent, Extent.stop] at hnode
    unfold replacement
    split_ifs with hsplit
    · exact load64_lt _ _
    · simp only [remaining] at hsplit
      omega
  have hcarved := hordered.carve hfit.le_length
  rw [List.append_assoc] at hcarved ⊢
  exact nodesAt_linked hfront' (nodesAt_cut hback hfit.le_length hsuffix hword) hcarved
    (by omega) hword hreplacement

/-- Memory after `kmalloc` carved a block out of the page. -/
def carvedBytes (bytes : Memory) (page : Page) (front : List Node) (node : Node)
    (back : List Node) (size : ℕ) : Memory :=
  store64 (linked (cutBytes bytes node size) page.base front (replacement bytes node size))
    (page.base + 16) (maxLength 0 (front ++ carvedRest node size ++ back))

theorem run_relink {α : Type} {pageAddress target : ℕ} {next : ℕ → Code α}
    (hfront : ∀ other ∈ front, other.address ≠ 0 ∧ other.address + 16 ≤ 2 ^ 64) :
    run exec (relink pageAddress (lastAddress front) target >>= next) state =
      run exec (next 0) { state with bytes := linked state.bytes pageAddress front target } := by
  rcases List.eq_nil_or_concat front with rfl | ⟨earlier, prev, rfl⟩
  · rfl
  · rw [List.concat_eq_append] at hfront ⊢
    have hprev := hfront prev (by simp)
    have hnext : add prev.address 8 = prev.address + 8 := add_of_lt (by omega)
    rw [lastAddress_concat, linked_concat, relink, if_pos hprev.1, storeNodeNext, run_store, hnext]

/-- The end of `kmalloc`: relink, recompute `largest`, release the lock. -/
theorem run_carveEnd {pageAddress target value : ℕ} {nodes : List Node}
    (hfront : ∀ other ∈ front, other.address ≠ 0 ∧ other.address + 16 ≤ 2 ^ 64)
    (hnodes : NodesAt (linked state.bytes pageAddress front target)
      (load64 (linked state.bytes pageAddress front target) pageAddress) nodes 0)
    (hfuel : nodes.length < walkFuel) (hpage : pageAddress + 24 ≤ 2 ^ 64) :
    run exec (do
      let _ ← relink pageAddress (lastAddress front) target
      let head ← loadPageFreelist pageAddress
      let maxSize ← maximumScan walkFuel head 0
      let _ ← storePageLargest pageAddress maxSize
      let _ ← perform .lockRelease
      pure value) state =
      some (value,
        { state with
          bytes := store64 (linked state.bytes pageAddress front target) (pageAddress + 16)
            (maxLength 0 nodes)
          memoryLock := 0 }) := by
  have hlargest : add pageAddress 16 = pageAddress + 16 := add_of_lt (by omega)
  have hscan : run exec
      (maximumScan walkFuel (load64 (linked state.bytes pageAddress front target) pageAddress) 0)
      { state with bytes := linked state.bytes pageAddress front target } = _ :=
    run_maximumScan hnodes hfuel
  rw [run_relink hfront, loadPageFreelist, run_load, run_bind_of_eq hscan, storePageLargest,
    run_store, run_lockRelease, run_pure, hlargest]

/-- `kmalloc` from the node it found. -/
theorem run_carveNode (hpage : PageAt state.bytes page) (hword : page.base + 4096 ≤ 2 ^ 64)
    (hfit : page.Fit front node back size) (hpointer : node.address + 24 < 2 ^ 64) :
    run exec (carveNode size (size + 8) page.base (lastAddress front) node.address) state =
      some (node.address + 24,
        { state with
          bytes := carvedBytes state.bytes page front node back size
          memoryLock := 0 }) := by
  have hlengths := hpage.nodes.lengths node hfit.mem
  have hlength := hfit.le_length
  have hnode := page.ordered.within node hfit.mem
  simp only [Node.extent, Extent.stop] at hnode
  have hfront : ∀ other ∈ front, other.address ≠ 0 ∧ other.address + 16 ≤ 2 ^ 64 := by
    intro other hother
    have hwithin := page.ordered.within other (by rw [hfit.nodes_eq]; simp [hother])
    simp only [Node.extent, Extent.stop] at hwithin
    omega
  have hscan := nodesAt_carve hpage hword hfit
  have hfuel := hscan.length_lt fun other hother ↦ by
    have hwithin := (page.carve front node back size hfit).ordered.within other hother
    simp only [Page.carve, Node.extent, Extent.stop] at hwithin
    omega
  have hbase : add node.address 16 = node.address + 16 := add_of_lt (by omega)
  have hreturn : add (node.address + 16) 8 = node.address + 24 := add_of_lt (by omega)
  have hkept :
      load64 (store64 state.bytes (node.address + 16) size) node.address = node.length := by
    rw [load64_store64_of_apart (by omega), hlengths]
  have hremaining : sub node.length (size + 8) = remaining node size :=
    sub_of_le hlength (by omega)
  unfold carveNode
  simp only [loadNodeNext, loadNodeLength, storeNodeLength, storeNodeNext, run_load, run_store,
    run_ite, sizeofHeapNode, sizeofU64, hbase, hreturn, hkept, hremaining]
  by_cases hsplit : remaining node size < 16
  · have hword' : add size (remaining node size) = size + remaining node size :=
      add_of_lt (by simp only [remaining]; omega)
    have hcut : cutBytes state.bytes node size =
        store64 (store64 state.bytes (node.address + 16) size) (node.address + 16)
          (size + remaining node size) := if_pos hsplit
    have htarget : replacement state.bytes node size = nodeNext state.bytes node.address :=
      if_pos hsplit
    rw [if_pos hsplit, hword', ← hcut]
    unfold carvedBytes
    rw [htarget] at hscan ⊢
    exact run_carveEnd hfront hscan hfuel (by omega)
  · have hroom : size + 24 ≤ node.length := by
      simp only [remaining] at hsplit
      omega
    have hnew : add (node.address + 16) (size + 8) = node.address + 24 + size := by
      rw [add_of_lt (by omega)]
      omega
    have hnewNext : add (node.address + 24 + size) 8 = node.address + 24 + size + 8 :=
      add_of_lt (by omega)
    have hrest : sub (remaining node size) 16 = remaining node size - 16 :=
      sub_of_le (not_lt.mp hsplit) (by simp only [remaining]; omega)
    have hcut : cutBytes state.bytes node size =
        store64 (store64 (store64 state.bytes (node.address + 16) size) (node.address + 24 + size)
          (remaining node size - 16)) (node.address + 24 + size + 8)
          (nodeNext state.bytes node.address) := if_neg hsplit
    have htarget : replacement state.bytes node size = node.address + 24 + size := if_neg hsplit
    rw [if_neg hsplit, hnew, hnewNext, hrest]
    change run exec _ { state with
      bytes := store64 (store64 (store64 state.bytes (node.address + 16) size)
        (node.address + 24 + size) (remaining node size - 16)) (node.address + 24 + size + 8)
        (nodeNext state.bytes node.address) } = _
    rw [← hcut]
    unfold carvedBytes
    rw [htarget] at hscan ⊢
    exact run_carveEnd hfront hscan hfuel (by omega)

/-- Only the first three words of the page, its free nodes and one slot are written. -/
def Touches (page : Page) (slot : Extent) (bytes after : Memory) : Prop :=
  ∀ x, ¬ Extent.Holds ⟨page.base, 24⟩ x → (∀ node ∈ page.nodes, ¬ node.extent.Holds x) →
    ¬ slot.Holds x → after x = bytes x

theorem touches_carvedBytes (hfit : page.Fit front node back size) :
    Touches page (carvedBlock node size).slot bytes
      (carvedBytes bytes page front node back size) := by
  intro x hx hnodes _
  have hfront : ∀ other ∈ front, ¬ other.header.Holds x := by
    intro other hother hholds
    refine hnodes other (by rw [hfit.nodes_eq]; simp [hother]) ⟨hholds.1, hholds.2.trans_le ?_⟩
    simp only [Node.header, Node.extent, Extent.stop]
    omega
  simp only [Extent.Holds, Extent.stop] at hx
  unfold carvedBytes
  rw [store64_of_outside (by omega), linked_of_outside ?_ hfront,
    cutBytes_of_outside hfit.le_length (hnodes node hfit.mem)]
  simp only [Extent.Holds, Extent.stop]
  omega

/-- Words apart from the nodes and the slot survive. -/
theorem Touches.load64_eq {slot : Extent} {after : Memory} {address : ℕ}
    (h : Touches page slot bytes after) (hheader : page.base + 24 ≤ address)
    (hapart : ∀ node ∈ page.nodes, Extent.Apart ⟨address, 8⟩ node.extent)
    (hslot : Extent.Apart ⟨address, 8⟩ slot) : load64 after address = load64 bytes address := by
  refine load64_congr fun x hlow hhigh ↦ ?_
  have hword : Extent.Holds ⟨address, 8⟩ x := ⟨hlow, hhigh⟩
  refine h x (fun hholds ↦ ?_) (fun node hnode ↦ (hapart node hnode).not_holds hword)
    (hslot.not_holds hword)
  simp only [Extent.Holds, Extent.stop] at hholds
  omega

/-- The size words of the other blocks survive. -/
theorem Touches.word_eq {slot : Extent} {after : Memory} {block : Block}
    (h : Touches page slot bytes after) (hblock : block ∈ page.blocks)
    (hslot : block.slot.Apart slot) :
    load64 after (block.pointer - 8) = load64 bytes (block.pointer - 8) := by
  have hwithin := page.blocks_within block hblock
  have hheader : Extent.Within ⟨block.pointer - 8, 8⟩ block.slot := by
    simp only [Block.slot, Extent.Within, Extent.stop]
    omega
  exact h.load64_eq (by omega)
    (fun node hnode ↦ (page.nodes_apart block hblock node hnode).mono_left hheader)
    (hslot.mono_left hheader)

/-- The carved memory represents the carved page. -/
theorem pageAt_carve (hpage : PageAt bytes page) (hword : page.base + 4096 ≤ 2 ^ 64)
    (hfit : page.Fit front node back size) :
    PageAt (carvedBytes bytes page front node back size)
      (page.carve front node back size hfit) := by
  have hnodes := nodesAt_carve hpage hword hfit
  have hordered := (page.carve front node back size hfit).ordered
  have hnode := page.ordered.within node hfit.mem
  simp only [Page.carve] at hordered
  have hmax : maxLength 0 (front ++ carvedRest node size ++ back) < 2 ^ 64 := by
    rcases maxLength_mem 0 (front ++ carvedRest node size ++ back) with hzero | ⟨other, hother, heq⟩
    · omega
    · have hwithin := hordered.within other hother
      simp only [Node.extent, Extent.stop] at hwithin
      omega
  refine ⟨?_, ?_, ?_⟩
  · have hhead : load64 (carvedBytes bytes page front node back size) page.base =
        load64 (linked (cutBytes bytes node size) page.base front
          (replacement bytes node size)) page.base := load64_store64_of_apart (by omega)
    simp only [Page.carve]
    rw [hhead]
    refine hnodes.congr (fun other hother ↦ ?_) fun other hother x hx ↦ store64_of_outside ?_
    · have hwithin := hordered.within other hother
      simp only [Node.extent, Extent.stop] at hwithin
      omega
    · have hwithin := hordered.within other hother
      simp only [Node.header, Extent.Holds, Extent.stop] at hx
      omega
  · exact load64_store64_same hmax
  · simp only [Page.carve, Finset.forall_mem_insert]
    constructor
    · simp only [Node.extent, Extent.stop] at hnode
      have hpointer : (carvedBlock node size).pointer - 8 = node.address + 16 := rfl
      have hlinked : load64 (linked (cutBytes bytes node size) page.base front
          (replacement bytes node size)) (node.address + 16) =
            load64 (cutBytes bytes node size) (node.address + 16) := by
        refine load64_congr fun x hlow hhigh ↦ linked_of_outside ?_ fun other hother hholds ↦ ?_
        · simp only [Extent.Holds, Extent.stop]
          omega
        · have hfit' := hfit.le_length
          have hside := hfit.node_apart (Or.inl hother)
          simp only [Node.header, Node.extent, Extent.Apart, Extent.Holds, Extent.stop]
            at hside hholds
          omega
      rw [hpointer, carvedBytes, load64_store64_of_apart (by omega), hlinked]
      exact cutBytes_word hfit.le_length (by omega)
    · intro block hblock
      rw [← hpage.words block hblock]
      exact (touches_carvedBytes hfit).word_eq hblock (hfit.apart hblock)

/-- The search of `kmalloc` stops at the first node that is long enough. -/
theorem PageAt.run_search (hpage : PageAt state.bytes page) (hword : page.base + 4096 ≤ 2 ^ 64)
    (hfit : page.Fit front node back size) (hfirst : ∀ other ∈ front, other.length < size + 8) :
    run exec (nodeSearch (size + 8) walkFuel 0 (load64 state.bytes page.base)) state =
      some ((lastAddress front, node.address), state) := by
  have hnodes := hpage.nodes
  have hfuel := hnodes.length_lt fun other hother ↦ by
    have hwithin := page.ordered.within other hother
    simp only [Node.extent, Extent.stop] at hwithin
    omega
  rw [hfit.nodes_eq] at hnodes hfuel
  exact run_nodeSearch_fit hnodes hfuel hfirst hfit.le_length

theorem Page.Fit.address_ne_zero (hfit : page.Fit front node back size) : node.address ≠ 0 := by
  have hnode := page.ordered.within node hfit.mem
  omega

/-- `kmalloc` within a page that has a node long enough: the first such node is carved. -/
theorem run_kmallocIn (hpage : PageAt state.bytes page) (hword : page.base + 4096 ≤ 2 ^ 64)
    (hfit : page.Fit front node back size) (hfirst : ∀ other ∈ front, other.length < size + 8)
    (hpointer : node.address + 24 < 2 ^ 64) :
    run exec (kmallocIn size (size + 8) page.base) state =
      some (node.address + 24,
        { state with
          bytes := carvedBytes state.bytes page front node back size
          memoryLock := 0 }) := by
  rw [kmallocIn, loadPageFreelist, run_load, run_bind_of_eq (hpage.run_search hword hfit hfirst)]
  simp only [if_neg hfit.address_ne_zero]
  exact run_carveNode hpage hword hfit hpointer

/-- Some node is the first that is long enough. -/
theorem exists_fit (h : ∃ node ∈ page.nodes, size + 8 ≤ node.length) :
    ∃ front node back, page.Fit front node back size ∧
      ∀ other ∈ front, other.length < size + 8 := by
  have hsplit (nodes : List Node) (h : ∃ node ∈ nodes, size + 8 ≤ node.length) :
      ∃ front node back, nodes = front ++ node :: back ∧ size + 8 ≤ node.length ∧
        ∀ other ∈ front, other.length < size + 8 := by
    induction nodes with
    | nil => simp at h
    | cons first rest ih =>
      by_cases hfirst : size + 8 ≤ first.length
      · exact ⟨[], first, rest, rfl, hfirst, by simp⟩
      · obtain ⟨node, hnode, hlength⟩ := h
        have hrest : node ∈ rest := by
          rcases List.mem_cons.mp hnode with rfl | hrest
          · exact absurd hlength hfirst
          · exact hrest
        obtain ⟨front, node, back, rfl, hnode, hfront⟩ := ih ⟨node, hrest, hlength⟩
        exact ⟨first :: front, node, back, rfl, hnode,
          List.forall_mem_cons.mpr ⟨not_le.mp hfirst, hfront⟩⟩
  obtain ⟨front, node, back, heq, hlength, hfront⟩ := hsplit page.nodes h
  exact ⟨front, node, back, ⟨heq, hlength⟩, hfront⟩

end Carve

/-! ## Releasing -/

section Release

variable {state : AllocatorState} {bytes : Memory} {page : Page} {block : Block}

theorem NodesAt.head_eq {head : ℕ} {nodes : List Node} (h : NodesAt bytes head nodes 0) :
    head = headAddress nodes := by
  cases nodes with
  | nil => exact nodesAt_nil.mp h
  | cons node nodes => exact (nodesAt_cons.mp h).1

def freedBytes (bytes : Memory) (block : Block) : Memory :=
  store64 bytes (freedNode block).address block.word

/-- Memory once the freed block is a node on the list, before the merge loop. -/
def insertedBytes (bytes : Memory) (page : Page) (block : Block) : Memory :=
  linked (store64 (freedBytes bytes block) ((freedNode block).address + 8)
    (headAddress (nodesAfter block page.nodes))) page.base (nodesBefore block page.nodes)
    (freedNode block).address

theorem insertedBytes_of_outside {x : ℕ} (hpage : ¬ Extent.Holds ⟨page.base, 8⟩ x)
    (hnodes : ∀ node ∈ page.nodes, ¬ node.header.Holds x)
    (hfreed : ¬ (freedNode block).header.Holds x) : insertedBytes bytes page block x = bytes x := by
  have hbefore : ∀ node ∈ nodesBefore block page.nodes, ¬ node.header.Holds x := by
    intro node hnode
    exact hnodes node (List.takeWhile_subset _ hnode)
  simp only [Node.header, Extent.Holds, Extent.stop] at hfreed
  unfold insertedBytes freedBytes
  rw [linked_of_outside hpage hbefore, store64_of_outside (by omega), store64_of_outside (by omega)]

theorem freedNode_header_within :
    (freedNode block).header.Within block.slot := by
  simp only [freedNode, Node.header, Block.slot, Extent.Within, Extent.stop]
  omega

/-- Writing into the slot of a block leaves the free list alone. -/
theorem nodesAt_of_slot {after : Memory} (hpage : PageAt bytes page)
    (hword : page.base + 4096 ≤ 2 ^ 64) (hblock : block ∈ page.blocks)
    (hagree : ∀ x, ¬ block.slot.Holds x → after x = bytes x) :
    NodesAt after (load64 after page.base) page.nodes 0 := by
  have hwithin := page.blocks_within block hblock
  have hhead : load64 after page.base = load64 bytes page.base :=
    load64_congr fun x _ _ ↦ hagree x fun hholds ↦ by
      simp only [Block.slot, Extent.Holds] at hholds
      omega
  rw [hhead]
  refine hpage.nodes.congr (fun node hnode ↦ ?_) fun node hnode x hx ↦ hagree x ?_
  · have hbound := page.ordered.within node hnode
    simp only [Node.extent, Extent.stop] at hbound
    omega
  · refine (page.nodes_apart block hblock node hnode).symm.not_holds ⟨hx.1, hx.2.trans_le ?_⟩
    simp only [Node.header, Node.extent, Extent.stop]
    omega

/-- The list once the freed block is inserted. -/
theorem nodesAt_inserted (hpage : PageAt bytes page) (hword : page.base + 4096 ≤ 2 ^ 64)
    (hblock : block ∈ page.blocks) :
    NodesAt (insertedBytes bytes page block) (load64 (insertedBytes bytes page block) page.base)
      (nodesBefore block page.nodes ++ freedNode block :: nodesAfter block page.nodes) 0 := by
  have hwithin := page.blocks_within block hblock
  have hstop := hwithin.2
  simp only [Block.slot, Extent.stop] at hstop
  have hslot (x : ℕ) (hx : ¬ block.slot.Holds x) :
      store64 (freedBytes bytes block) ((freedNode block).address + 8)
        (headAddress (nodesAfter block page.nodes)) x = bytes x := by
    simp only [Block.slot, Extent.Holds, Extent.stop] at hx
    unfold freedBytes freedNode
    rw [store64_of_outside (by dsimp only; omega), store64_of_outside (by dsimp only; omega)]
  have hhead : headAddress (nodesAfter block page.nodes) < 2 ^ 64 := by
    unfold headAddress
    cases hlist : nodesAfter block page.nodes with
    | nil => norm_num
    | cons first rest =>
      have hfirst := page.ordered.within first (by
        rw [← before_append_after block page.nodes, hlist]
        simp)
      simp only [Node.extent, Extent.stop] at hfirst
      simp only [List.map_cons, List.headD_cons]
      omega
  have hlength : load64 (store64 (freedBytes bytes block) ((freedNode block).address + 8)
      (headAddress (nodesAfter block page.nodes))) (freedNode block).address = block.word := by
    rw [load64_store64_of_apart (by omega), freedBytes, load64_store64_same (by omega)]
  have hnext : nodeNext (store64 (freedBytes bytes block) ((freedNode block).address + 8)
      (headAddress (nodesAfter block page.nodes))) (freedNode block).address =
        headAddress (nodesAfter block page.nodes) := by
    have hadd : add (freedNode block).address 8 = (freedNode block).address + 8 :=
      add_of_lt (by simp only [freedNode]; omega)
    rw [nodeNext, hadd, load64_store64_same hhead]
  have hnodes := nodesAt_of_slot hpage hword hblock hslot
  unfold insertedBytes
  generalize store64 (freedBytes bytes block) ((freedNode block).address + 8)
    (headAddress (nodesAfter block page.nodes)) = withNext at hlength hnext hnodes ⊢
  have hordered := page.ordered.insert (page.nodes_apart block hblock)
    ⟨by simp only [Block.slot]; omega, hwithin.2⟩
  rw [← before_append_after block page.nodes] at hnodes
  obtain ⟨middle, hbefore, hafter⟩ := nodesAt_append.mp hnodes
  refine nodesAt_linked hbefore ?_ hordered (by omega) hword ?_
  · rw [hafter.head_eq, ← hnext] at hafter
    exact nodesAt_cons.mpr ⟨rfl, by simp only [freedNode]; omega, hlength, hafter⟩
  · simp only [freedNode]
    omega

/-- The node the merge loop starts from: the one before the freed node, if there is one. -/
theorem exists_mergeStart (block : Block) (nodes : List Node) :
    ∃ earlier start rest,
      nodesBefore block nodes ++ freedNode block :: nodesAfter block nodes =
        earlier ++ start :: rest ∧
      coalesce (freedNode block) (nodesAfter block nodes) (nodesBefore block nodes) =
        earlier ++ mergeFrom start rest ∧
      (nodesBefore block nodes = [] ∧ start = freedNode block ∨
        nodesBefore block nodes = earlier ++ [start]) := by
  rcases List.eq_nil_or_concat (nodesBefore block nodes) with hnil | ⟨earlier, prev, hconcat⟩
  · exact ⟨[], freedNode block, nodesAfter block nodes, by rw [hnil], by rw [hnil]; rfl,
      Or.inl ⟨hnil, rfl⟩⟩
  · rw [List.concat_eq_append] at hconcat
    refine ⟨earlier, prev, freedNode block :: nodesAfter block nodes, by rw [hconcat]; simp,
      by rw [hconcat, coalesce_concat], Or.inr hconcat⟩

/-- The merge loop after the insertion leaves the released list. -/
theorem run_mergeReleased {start : Node} {earlier rest : List Node}
    (hpage : PageAt state.bytes page)
    (hword : page.base + 4096 ≤ 2 ^ 64) (hblock : block ∈ page.blocks)
    (hsplit : nodesBefore block page.nodes ++ freedNode block :: nodesAfter block page.nodes =
      earlier ++ start :: rest)
    (hreleased : page.releasedNodes block = earlier ++ mergeFrom start rest) :
    ∃ bytes, run exec (mergeLoop walkFuel start.address)
        { state with bytes := insertedBytes state.bytes page block } =
        some ((), { state with bytes := bytes }) ∧
      NodesAt bytes (load64 bytes page.base) (page.releasedNodes block) 0 ∧
      ∀ x, (∀ node ∈ page.nodes, ¬ node.header.Holds x) → ¬ (freedNode block).header.Holds x →
        bytes x = insertedBytes state.bytes page block x := by
  have hwithin := page.blocks_within block hblock
  have hordered := page.ordered.insert (page.nodes_apart block hblock)
    ⟨by simp only [Block.slot]; omega, hwithin.2⟩
  have hinserted := nodesAt_inserted hpage hword hblock
  have hbound (node : Node) (hnode : node ∈ earlier ++ start :: rest) :
      page.base + 32 ≤ node.address ∧ node.address + 16 ≤ 2 ^ 64 := by
    rw [hsplit] at hordered
    have hnode' := hordered.within node hnode
    simp only [Node.extent, Extent.stop] at hnode'
    omega
  rw [hsplit] at hordered hinserted
  obtain ⟨middle, hearlier, hrest⟩ := nodesAt_append.mp hinserted
  obtain rfl : middle = start.address := (nodesAt_cons.mp hrest).1
  have hsuffix : Ordered (page.base + 32) (page.base + 4096) (start :: rest) :=
    ⟨(List.pairwise_append.mp hordered.pairwise).2.1, fun node hnode ↦
      hordered.within node (List.mem_append_right _ hnode)⟩
  have hfuel := hrest.length_lt fun node hnode ↦ (hbound node (List.mem_append_right _ hnode)).2
  obtain ⟨bytes, hrun, hmerged, hframe⟩ :=
    @run_mergeLoop _ _ walkFuel { state with bytes := insertedBytes state.bytes page block } start
      rest hrest hsuffix hword (by rw [List.length_cons] at hfuel; omega)
  have hkept (x : ℕ) (hx : ∀ node ∈ start :: rest, ¬ node.header.Holds x) :
      bytes x = insertedBytes state.bytes page block x := hframe x hx
  have hhead : load64 bytes page.base =
      load64 (insertedBytes state.bytes page block) page.base :=
    load64_congr fun x hlow hhigh ↦ hkept x fun node hnode hholds ↦ by
      have hnode' := (hbound node (List.mem_append_right _ hnode)).1
      simp only [Node.header, Extent.Holds] at hholds
      omega
  refine ⟨bytes, hrun, ?_, fun x hnodes hfreed ↦ hkept x fun node hnode ↦ ?_⟩
  · rw [hreleased, hhead]
    refine nodesAt_append.mpr ⟨start.address, hearlier.congr
      (fun node hnode ↦ (hbound node (List.mem_append_left _ hnode)).2)
      fun node hnode x hx ↦ hkept x fun other hother hholds ↦ ?_, hmerged⟩
    have hstop := (List.pairwise_append.mp hordered.pairwise).2.2 node hnode other hother
    simp only [Node.header, Node.extent, Extent.Holds, Extent.stop] at hx hholds hstop
    omega
  · have hmem : node ∈ nodesBefore block page.nodes ++ freedNode block ::
        nodesAfter block page.nodes := by
      rw [hsplit]
      exact List.mem_append_right _ hnode
    rw [List.mem_append, List.mem_cons] at hmem
    have hsub := before_append_after block page.nodes
    rcases hmem with hmem | rfl | hmem
    · exact hnodes node (by rw [← hsub]; exact List.mem_append_left _ hmem)
    · exact hfreed
    · exact hnodes node (by rw [← hsub]; exact List.mem_append_right _ hmem)

/-- The free list as `kfree` walks it, with the new node's length already written. -/
theorem nodesAt_freedBytes (hpage : PageAt bytes page) (hword : page.base + 4096 ≤ 2 ^ 64)
    (hblock : block ∈ page.blocks) :
    NodesAt (freedBytes bytes block) (load64 (freedBytes bytes block) page.base) page.nodes 0 := by
  refine nodesAt_of_slot hpage hword hblock fun x hx ↦ store64_of_outside ?_
  simp only [Block.slot, Extent.Holds, Extent.stop] at hx
  simp only [freedNode]
  omega

/-- Writing both links of the inserted node, in either order. -/
theorem linked_store_comm {before : List Node} {address target : ℕ}
    (hbefore : ∀ node ∈ before, node.address + 16 ≤ address) (hpage : page.base + 8 ≤ address) :
    linked (store64 bytes (address + 8) target) page.base before address =
      store64 (linked bytes page.base before address) (address + 8) target := by
  rcases List.eq_nil_or_concat before with rfl | ⟨earlier, prev, rfl⟩
  · exact store64_comm (by omega)
  · rw [List.concat_eq_append] at hbefore ⊢
    have hprev := hbefore prev (by simp)
    rw [linked_concat, linked_concat]
    exact store64_comm (by omega)

/-- Only the list head of the page and the headers of free nodes and of the new node are written. -/
def Relinks (page : Page) (block : Block) (bytes after : Memory) : Prop :=
  ∀ x, ¬ Extent.Holds ⟨page.base, 8⟩ x → (∀ node ∈ page.nodes, ¬ node.header.Holds x) →
    ¬ (freedNode block).header.Holds x → after x = bytes x

theorem Relinks.touches {after : Memory} (h : Relinks page block bytes after) :
    Touches page block.slot bytes after := by
  intro x hx hnodes hslot
  refine h x (fun hholds ↦ hx ?_) (fun node hnode hholds ↦ hnodes node hnode ?_) fun hholds ↦
    hslot (freedNode_header_within.holds hholds)
  · exact ⟨hholds.1, hholds.2.trans_le (by simp only [Extent.stop]; omega)⟩
  · refine ⟨hholds.1, hholds.2.trans_le ?_⟩
    simp only [Node.header, Node.extent, Extent.stop]
    omega

/-- The page's `largest` survives. -/
theorem Relinks.largest_eq {after : Memory} (h : Relinks page block bytes after)
    (hblock : block ∈ page.blocks) :
    load64 after (page.base + 16) = load64 bytes (page.base + 16) := by
  have hwithin := page.blocks_within block hblock
  refine load64_congr fun x hlow hhigh ↦ h x (fun hholds ↦ ?_) (fun node hnode hholds ↦ ?_)
    fun hholds ↦ ?_
  · simp only [Extent.Holds, Extent.stop] at hholds
    omega
  · have hnode' := page.ordered.within node hnode
    simp only [Node.header, Extent.Holds] at hholds
    omega
  · simp only [freedNode, Node.header, Extent.Holds] at hholds
    omega

/-- `kfree` of a block of a represented page leaves the released page and writes to the list head
and to headers only. -/
theorem run_kfreeSmall (hpage : PageAt state.bytes page) (hword : page.base + 4096 ≤ 2 ^ 64)
    (hblock : block ∈ page.blocks) :
    ∃ bytes, run exec (kfreeSmall page.base (block.pointer - 8)) state =
        some (true, { state with bytes := bytes, memoryLock := 0 }) ∧
      PageAt bytes (page.release block hblock) ∧ Relinks page block state.bytes bytes := by
  have hwithin := page.blocks_within block hblock
  have hstop := hwithin.2
  simp only [Block.slot, Extent.stop] at hstop
  obtain ⟨earlier, start, rest, hsplit, hreleased, hstart⟩ := exists_mergeStart block page.nodes
  obtain ⟨bytes, hmerge, hnodes, hkept⟩ := run_mergeReleased hpage hword hblock hsplit hreleased
  have hfreed := nodesAt_freedBytes hpage hword hblock
  have hfuel := hfreed.length_lt fun node hnode ↦ by
    have hnode' := page.ordered.within node hnode
    simp only [Node.extent, Extent.stop] at hnode'
    omega
  have hwalk : run exec (insertWalk (freedNode block).address walkFuel 0
      (load64 (freedBytes state.bytes block) page.base))
      { state with bytes := freedBytes state.bytes block } =
        some ((lastAddress (nodesBefore block page.nodes),
          headAddress (nodesAfter block page.nodes)), _) := run_insertWalk hfreed hfuel
  have hnode : sub (block.pointer - 8) 16 = (freedNode block).address := by
    rw [sub_of_le (by omega) (by omega)]
    simp only [freedNode]
    omega
  have hnext : add (freedNode block).address 8 = (freedNode block).address + 8 :=
    add_of_lt (by simp only [freedNode]; omega)
  have hrun : run exec (kfreeSmall page.base (block.pointer - 8)) state =
      some (true, { state with bytes := bytes, memoryLock := 0 }) := by
    have hfold : store64 state.bytes (freedNode block).address block.word =
        freedBytes state.bytes block := rfl
    unfold kfreeSmall
    simp only [storeNodeLength, loadPageFreelist, run_load, run_store, sizeofHeapNode, hnode,
      hpage.words block hblock, hfold]
    rw [run_bind_of_eq hwalk]
    simp only [run_ite, storeNodeNext, storePageFreelist, run_store, hnext]
    rcases hstart with ⟨hnil, rfl⟩ | hconcat
    · have hinserted : insertedBytes state.bytes page block =
          store64 (store64 (freedBytes state.bytes block) ((freedNode block).address + 8)
            (headAddress (nodesAfter block page.nodes))) page.base (freedNode block).address := by
        rw [insertedBytes, hnil, linked_nil]
      have hlast : lastAddress [] = 0 := rfl
      rw [hnil, if_pos hlast, ← hinserted, run_bind_of_eq hmerge, run_lockRelease, run_pure]
    · have hprev := page.ordered.within start (by
        rw [← before_append_after block page.nodes, hconcat]
        simp)
      simp only [Node.extent, Extent.stop] at hprev
      have hprevNext : add start.address 8 = start.address + 8 := add_of_lt (by omega)
      have hne : ¬ start.address = 0 := by omega
      have hbefore : ∀ node ∈ nodesBefore block page.nodes,
          node.address + 16 ≤ (freedNode block).address := by
        intro node hnode
        have hordered := page.ordered.insert (page.nodes_apart block hblock)
          ⟨by simp only [Block.slot]; omega, hwithin.2⟩
        have hapart := (List.pairwise_append.mp hordered.pairwise).2.2 node hnode
          (freedNode block) List.mem_cons_self
        simp only [Node.extent, Extent.stop] at hapart
        omega
      have hinserted : insertedBytes state.bytes page block =
          store64 (store64 (freedBytes state.bytes block) (start.address + 8)
            (freedNode block).address) ((freedNode block).address + 8)
              (headAddress (nodesAfter block page.nodes)) := by
        rw [insertedBytes, linked_store_comm hbefore (by simp only [freedNode]; omega), hconcat,
          linked_concat]
      rw [hconcat, lastAddress_concat, if_neg hne, hprevNext, ← hinserted, run_bind_of_eq hmerge,
        run_lockRelease, run_pure]
  have hrelinks : Relinks page block state.bytes bytes := by
    intro x hx hheaders hfreed
    rw [hkept x hheaders hfreed]
    exact insertedBytes_of_outside hx hheaders hfreed
  refine ⟨bytes, hrun, ⟨hnodes, (hrelinks.largest_eq hblock).trans hpage.largest,
    fun other hother ↦ ?_⟩, hrelinks⟩
  have hmem := Finset.mem_of_mem_erase hother
  rw [hrelinks.touches.word_eq hmem (page.blocks_apart other hmem block hblock
    (Finset.ne_of_mem_erase hother))]
  exact hpage.words other hmem

end Release

end SideHOS.Heap
