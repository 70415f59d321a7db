import SideHOS.Heap.Callers

/-!
# Out of memory

When the frame layer has nothing to give it answers physical address 0, and `kmalloc` does not
look at the answer.  A large request then returns the address of frame 0 in the direct map, with
the header added; a small one takes frame 0 for a heap page and searches the list that its first
word heads.  Only when that search finds nothing does `kmalloc` answer `NULL` and change nothing.
-/

namespace SideHOS.Heap

open Kernel Linked Machine Machine.Word64 Machine.ByteMemory Sharing Sharing.Program

/-- Between calls: the lock is free, and cursor and list head hold values of their types. -/
structure Settled (state : AllocatorState) : Prop where
  lock_eq : state.memoryLock = 0
  cursor_lt : state.context.freelist.cursor < 256
  heapPages_lt : state.context.heapPages < 2 ^ 64

/-- There is no frame supply for a request of this size: no page on the list and no segment can
serve it. -/
def Unsupplied (size : ℕ) (state : AllocatorState) : Prop :=
  if 4040 < size then
    size + 40 + 4095 < 2 ^ 64 ∧ ∀ index < state.context.freelist.cursor,
      (state.context.freelist.segments index).length < (size + 40 + 4095) / 4096
  else
    (∀ pages page, Path 0 (pageNext state.bytes) state.context.heapPages pages page → page ≠ 0 →
      pageLargest state.bytes page < size + 8) ∧
    ∀ index < state.context.freelist.cursor, (state.context.freelist.segments index).length = 0

/-- Frame 0, taken for a heap page, has a finite free list without a node that is long enough. -/
def NoFit (hhdmOffset size : ℕ) (bytes : Memory) : Prop :=
  ∃ nodes, Chain 0 (nodeNext bytes) (load64 bytes hhdmOffset) nodes ∧
    ∀ node ∈ nodes, load64 bytes node < size + 8

/-- Some long enough node on the list of frame 0 is so near the end of the address space that the
block's address wraps to `NULL`. -/
def WrapsToNull (hhdmOffset size : ℕ) (bytes : Memory) : Prop :=
  ∃ nodes node, Path 0 (nodeNext bytes) (load64 bytes hhdmOffset) nodes node ∧ node ≠ 0 ∧
    size + 8 ≤ load64 bytes node ∧ add (add node 16) 8 = 0

section Walks

variable {state after : AllocatorState} {head totalSize fuel : ℕ} {cells : List ℕ}

/-- A walk that returned has followed a finite list to its answer. -/
theorem run_walk_some {α : Type} (loop : ℕ → ℕ → ℕ → Code α) (out : ℕ → ℕ → Code α)
    (test : ℕ → Bool) (next : ℕ → ℕ) (prev : ℕ)
    (hstop : ∀ prev cursor, run exec (loop 0 prev cursor) state = none)
    (hloop : ∀ fuel prev cursor, run exec (loop (fuel + 1) prev cursor) state =
      if cursor = 0 then run exec (out prev 0) state
      else if test cursor then run exec (loop fuel cursor (next cursor)) state
      else run exec (out prev cursor) state)
    {result : α × AllocatorState} (h : run exec (loop fuel prev head) state = some result) :
    ∃ cells prev stop, Path 0 next head cells stop ∧ (∀ cell ∈ cells, test cell = true) ∧
      (stop ≠ 0 → ¬ test stop = true) ∧ run exec (out prev stop) state = some result := by
  induction fuel generalizing prev head with
  | zero =>
    rw [hstop] at h
    cases h
  | succ fuel ih =>
    rw [hloop] at h
    split_ifs at h with hzero htest
    · subst hzero
      exact ⟨[], prev, 0, rfl, by simp, fun hne ↦ absurd rfl hne, h⟩
    · obtain ⟨cells, last, stop, hpath, hcells, hrest⟩ := ih head h
      exact ⟨head :: cells, last, stop, ⟨rfl, hzero, hpath⟩,
        List.forall_mem_cons.mpr ⟨htest, hcells⟩, hrest⟩
    · exact ⟨[], prev, head, rfl, by simp, fun _ ↦ htest, h⟩

theorem run_pageWalk_some {page : ℕ}
    (h : run exec (pageWalk totalSize fuel head) state = some (page, after)) :
    after = state ∧ ∃ cells, Path 0 (pageNext state.bytes) head cells page ∧
      (page ≠ 0 → totalSize ≤ pageLargest state.bytes page) := by
  obtain ⟨cells, prev, stop, hpath, -, hstop, hout⟩ :=
    run_walk_some (fun fuel _ page ↦ pageWalk totalSize fuel page) (fun _ page ↦ pure page)
      (fun page ↦ decide (pageLargest state.bytes page < totalSize)) (pageNext state.bytes) 0
      (fun _ _ ↦ rfl) (fun fuel _ page ↦ by
        simp only [pageWalk, run_loadPageLargest, run_loadPageNext, run_ite, run_pure,
          decide_eq_true_eq]) h
  obtain ⟨rfl, rfl⟩ := Prod.mk.inj (Option.some.inj hout)
  exact ⟨rfl, cells, hpath, fun hne ↦ by simpa using hstop hne⟩

theorem run_nodeSearch_some {prev node : ℕ}
    (h : run exec (nodeSearch totalSize fuel 0 head) state = some ((prev, node), after)) :
    after = state ∧ ∃ cells, Path 0 (nodeNext state.bytes) head cells node ∧
      (∀ cell ∈ cells, load64 state.bytes cell < totalSize) ∧
      (node ≠ 0 → totalSize ≤ load64 state.bytes node) := by
  obtain ⟨cells, last, stop, hpath, hcells, hstop, hout⟩ :=
    run_walk_some (nodeSearch totalSize) (fun prev node ↦ pure (prev, node))
      (fun cell ↦ decide (load64 state.bytes cell < totalSize)) (nodeNext state.bytes) 0
      (fun _ _ ↦ rfl) (fun fuel prev node ↦ by
        simp only [nodeSearch, loadNodeLength, loadNodeNext, nodeNext, run_ite, run_load,
          run_pure, decide_eq_true_eq]) h
  obtain ⟨hresult, rfl⟩ := Prod.mk.inj (Option.some.inj hout)
  obtain ⟨-, rfl⟩ := Prod.mk.inj hresult
  refine ⟨rfl, cells, hpath, fun cell hcell ↦ of_decide_eq_true (hcells cell hcell), fun hne ↦ ?_⟩
  simpa using hstop hne

/-- A program that ends by answering one value answers that value. -/
theorem run_bind_answer {α β : Type} {program : Code α} {rest : α → Code β} {value answer : β}
    (hrest : ∀ result middle last, run exec (rest result) middle = some (answer, last) →
      answer = value)
    (h : run exec (program >>= rest) state = some (answer, after)) : answer = value := by
  rw [run_bind, Option.bind_eq_some_iff] at h
  obtain ⟨⟨result, middle⟩, -, hrun⟩ := h
  exact hrest result middle after hrun

theorem run_pure_answer {β : Type} {value answer : β}
    (h : run exec (pure value : Code β) state = some (answer, after)) : answer = value :=
  (Prod.mk.inj (Option.some.inj h)).1.symm

/-- Whatever `kmalloc` carves, it answers the address behind the size word. -/
theorem run_carveNode_some {size page prev node pointer : ℕ}
    (h : run exec (carveNode size totalSize page prev node) state = some (pointer, after)) :
    pointer = add (add node 16) 8 := by
  unfold carveNode at h
  simp only [loadNodeNext, loadNodeLength, run_load, run_store, run_ite] at h
  split_ifs at h
  all_goals
    iterate 5 refine run_bind_answer (fun _ _ _ h ↦ ?_) h
    exact run_pure_answer h

end Walks

section Refused

variable {state after : AllocatorState} {hhdmOffset size : ℕ}

/-- Frame 0 in the direct map. -/
theorem add_zero_offset (hoffset : hhdmOffset < 2 ^ 64) : add 0 hhdmOffset = hhdmOffset := by
  rw [add_of_lt (by omega), zero_add]

/-- A small request that finds neither a page nor a frame is served from frame 0. -/
theorem run_kmallocSmall_refused (hoffset : hhdmOffset < 2 ^ 64) (hsize : size ≤ 4040)
    (hwalk : run exec (pageWalk (size + 8) walkFuel state.context.heapPages) state =
      some (0, state))
    (hframe : run exec (memoryAllocateFrame hhdmOffset) state = some (0, state)) :
    run exec (kmallocSmall hhdmOffset size) state =
      run exec (kmallocIn size (size + 8) hhdmOffset) state := by
  have htotal : add size 8 = size + 8 := add_of_lt (by omega)
  have hchoose : run exec (choosePage hhdmOffset (size + 8)) state = some (hhdmOffset, state) := by
    unfold choosePage
    rw [run_loadHeapPages, run_bind_of_eq hwalk, if_pos rfl, run_bind_of_eq hframe, run_pure,
      addressPhysicalToVirtual, add_zero_offset hoffset]
  unfold kmallocSmall
  simp only [sizeofU64, htotal]
  rw [run_bind_of_eq hchoose]

/-- Without a fit on the list of frame 0, `kmalloc` answers `NULL`. -/
theorem run_kmallocIn_null (hfit : NoFit hhdmOffset size state.bytes) :
    run exec (kmallocIn size (size + 8) hhdmOffset) state =
      some (0, { state with memoryLock := 0 }) := by
  obtain ⟨nodes, hnodes, hshort⟩ := hfit
  have hcells := Chain.mem_lt hnodes (load64_lt _ _) fun node ↦ load64_lt _ _
  have hfuel := Chain.length_lt hnodes hcells (by norm_num)
  rw [← walkFuel] at hfuel
  have hall : ∀ node ∈ nodes, decide (load64 state.bytes node < size + 8) = true :=
    fun node hnode ↦ decide_eq_true (hshort node hnode)
  have hsearch : run exec (nodeSearch (size + 8) walkFuel 0 (load64 state.bytes hhdmOffset))
      state = _ := run_nodeSearch hnodes hfuel
  rw [(takeWhile_all hall).2] at hsearch
  rw [kmallocIn, loadPageFreelist, run_load, run_bind_of_eq hsearch]
  rfl

/-- If `kmalloc` answers `NULL` from frame 0, it found nothing there, or a block at address 0. -/
theorem noFit_of_run_kmallocIn
    (hrun : run exec (kmallocIn size (size + 8) hhdmOffset) state = some (0, after)) :
    NoFit hhdmOffset size state.bytes ∨ WrapsToNull hhdmOffset size state.bytes := by
  rw [kmallocIn, loadPageFreelist, run_load, run_bind, Option.bind_eq_some_iff] at hrun
  obtain ⟨⟨⟨prev, node⟩, middle⟩, hsearch, hrest⟩ := hrun
  obtain ⟨rfl, cells, hpath, hshort, hfit⟩ := run_nodeSearch_some hsearch
  by_cases hzero : node = 0
  · subst hzero
    exact Or.inl ⟨cells, hpath, hshort⟩
  · simp only [if_neg hzero] at hrest
    exact Or.inr ⟨cells, node, hpath, hzero, hfit hzero, (run_carveNode_some hrest).symm⟩

/-- A list without a fit has no node whose block wraps. -/
theorem NoFit.not_wraps {bytes : Memory} (hfit : NoFit hhdmOffset size bytes) :
    ¬ WrapsToNull hhdmOffset size bytes := by
  rintro ⟨front, node, hpath, hne, hlong, -⟩
  obtain ⟨nodes, hnodes, hshort⟩ := hfit
  exact absurd hlong (not_le.mpr (hshort node (Chain.mem_of_path hnodes hpath hne)))

end Refused

section Exhausted

variable {state : AllocatorState} {hhdmOffset size : ℕ}

/-- The requests that exhausted memory refuses as it should. -/
def RefusedProperly (hhdmOffset size : ℕ) (state : AllocatorState) : Prop :=
  size ≤ 4040 ∧ (∃ pages, Chain 0 (pageNext state.bytes) state.context.heapPages pages) ∧
    NoFit hhdmOffset size state.bytes

theorem firstFit_eq_none {freelist : FreeList} {count : ℕ} (hcursor : freelist.cursor < 256)
    (hshort : ∀ index < freelist.cursor, (freelist.segments index).length < count) :
    Frames.firstFit freelist count = none :=
  Frames.firstFit_eq_none_iff.mpr fun index hindex ↦
    hshort index (hindex.trans_le (Frames.scanLimit_le freelist hcursor))

/-- A large request is never refused: without frames it gets the address of frame 0. -/
theorem run_kmalloc_large (hsettled : Settled state) (hoffset : hhdmOffset + 40 < 2 ^ 64)
    (hsize : 4040 < size) (hunsupplied : Unsupplied size state) :
    run exec (kmalloc hhdmOffset size) state = some (hhdmOffset + 40, state) := by
  rw [Unsupplied, if_pos hsize] at hunsupplied
  obtain ⟨hword, hshort⟩ := hunsupplied
  have hcount : frameCounts size = (size + 40 + 4095) / 4096 := frameCounts_of_lt hword
  rw [← hcount] at hshort
  have hframes : run exec (memoryAllocateFrames hhdmOffset (frameCounts size))
      { state with memoryLock := 1 } = some (0, { state with memoryLock := 1 }) := by
    have hcursor := hsettled.cursor_lt
    rw [Frames.run_allocateFrames_search (by dsimp only; omega)]
    dsimp only
    rw [firstFit_eq_none hcursor hshort]
    rfl
  have hlock : { state with memoryLock := 0 } = state := by
    rw [← hsettled.lock_eq]
  have hfirst : add hhdmOffset 32 = hhdmOffset + 32 := add_of_lt (by omega)
  have hsecond : add (hhdmOffset + 32) 8 = hhdmOffset + 40 := add_of_lt (by omega)
  unfold kmalloc
  rw [run_lockAcquire _ hsettled.lock_eq, if_pos (show size > smallPageMaximumSize from hsize),
    kmallocLarge, run_bind_of_eq hframes, addressPhysicalToVirtual,
    add_zero_offset (by omega)]
  simp only [sizeofHeapPage, sizeofU64, hfirst, hsecond, run_lockRelease, run_pure, hlock]

/-- A small request without supply is searched for in frame 0 once the page walk has ended. -/
theorem run_kmalloc_small (hsettled : Settled state) (hoffset : hhdmOffset < 2 ^ 64)
    (hsize : size ≤ 4040) (hunsupplied : Unsupplied size state)
    (hwalk : run exec (pageWalk (size + 8) walkFuel state.context.heapPages)
      { state with memoryLock := 1 } = some (0, { state with memoryLock := 1 })) :
    run exec (kmalloc hhdmOffset size) state =
      run exec (kmallocIn size (size + 8) hhdmOffset) { state with memoryLock := 1 } := by
  rw [Unsupplied, if_neg (not_lt.mpr hsize)] at hunsupplied
  have hframe : run exec (memoryAllocateFrame hhdmOffset) { state with memoryLock := 1 } =
      some (0, { state with memoryLock := 1 }) := by
    have hcursor := hsettled.cursor_lt
    rw [Frames.run_allocateFrame_search (by dsimp only; omega)]
    dsimp only
    rw [firstFit_eq_none hcursor fun index hindex ↦ by
      rw [hunsupplied.2 index hindex]
      exact one_pos]
    rfl
  rw [run_kmalloc_of_le hsettled.lock_eq hsize]
  exact run_kmallocSmall_refused hoffset hsize hwalk hframe

/-- A finite page list without a large enough page is walked to its end. -/
theorem run_pageWalk_unsupplied (hsettled : Settled state) (hsize : size ≤ 4040)
    (hunsupplied : Unsupplied size state) {pages : List ℕ}
    (hpages : Chain 0 (pageNext state.bytes) state.context.heapPages pages) :
    run exec (pageWalk (size + 8) walkFuel state.context.heapPages)
      { state with memoryLock := 1 } = some (0, { state with memoryLock := 1 }) := by
  rw [Unsupplied, if_neg (not_lt.mpr hsize)] at hunsupplied
  have hcells := Chain.mem_lt hpages hsettled.heapPages_lt fun page ↦ load64_lt _ _
  have hfuel := Chain.length_lt hpages hcells (by norm_num)
  rw [← walkFuel] at hfuel
  have hall : ∀ page ∈ pages, decide (pageLargest state.bytes page < size + 8) = true := by
    intro page hpage
    obtain ⟨front, back, rfl⟩ := List.append_of_mem hpage
    obtain ⟨middle, hfront, hback⟩ := path_append.mp hpages
    obtain ⟨rfl, hne, -⟩ := hback
    exact decide_eq_true (hunsupplied.1 front middle hfront hne)
  have hwalk : run exec (pageWalk (size + 8) walkFuel state.context.heapPages)
      { state with memoryLock := 1 } = _ := Heap.run_pageWalk hpages hfuel
  rw [(takeWhile_all hall).2] at hwalk
  exact hwalk

/-- A small request that returns without supply has walked a finite page list. -/
theorem exists_pages_of_run {result : ℕ × AllocatorState} (hsettled : Settled state)
    (hsize : size ≤ 4040) (hunsupplied : Unsupplied size state)
    (hrun : run exec (kmalloc hhdmOffset size) state = some result) :
    ∃ pages, Chain 0 (pageNext state.bytes) state.context.heapPages pages := by
  rw [Unsupplied, if_neg (not_lt.mpr hsize)] at hunsupplied
  have htotal : add size 8 = size + 8 := add_of_lt (by omega)
  rw [run_kmalloc_of_le hsettled.lock_eq hsize] at hrun
  simp only [kmallocSmall, sizeofU64, htotal] at hrun
  rw [run_bind, Option.bind_eq_some_iff] at hrun
  obtain ⟨chosen, hchoose, -⟩ := hrun
  rw [choosePage, run_loadHeapPages, run_bind, Option.bind_eq_some_iff] at hchoose
  obtain ⟨⟨page, middle⟩, hwalk, -⟩ := hchoose
  obtain ⟨-, pages, hpath, hlargest⟩ := run_pageWalk_some hwalk
  by_cases hzero : page = 0
  · exact ⟨pages, hzero ▸ hpath⟩
  · exact absurd (hlargest hzero) (not_le.mpr (hunsupplied.1 pages page hpath hzero))

/-- Without supply, `kmalloc` answers `NULL` and changes nothing exactly if the request is small,
the page list ends and frame 0 has no fit; setting aside a fit whose address wraps to `NULL`. -/
theorem kmalloc_null_iff (hsettled : Settled state) (haligned : hhdmOffset % 4096 = 0)
    (hoffset : hhdmOffset < 2 ^ 64) (hunsupplied : Unsupplied size state) :
    RefusedProperly hhdmOffset size state ↔
      run exec (kmalloc hhdmOffset size) state = some (0, state) ∧
        ¬ WrapsToNull hhdmOffset size state.bytes := by
  have hlock : { state with memoryLock := 0 } = state := by
    rw [← hsettled.lock_eq]
  constructor
  · rintro ⟨hsize, ⟨pages, hpages⟩, hfit⟩
    have hwalk := run_pageWalk_unsupplied hsettled hsize hunsupplied hpages
    refine ⟨?_, hfit.not_wraps⟩
    rw [run_kmalloc_small hsettled hoffset hsize hunsupplied hwalk]
    have hnull : run exec (kmallocIn size (size + 8) hhdmOffset) { state with memoryLock := 1 } =
        some (0, { state with memoryLock := 0 }) := run_kmallocIn_null hfit
    rw [hnull, hlock]
  · rintro ⟨hrun, hwraps⟩
    by_cases hsize : 4040 < size
    · rw [run_kmalloc_large hsettled (by omega) hsize hunsupplied] at hrun
      cases hrun
    · rw [not_lt] at hsize
      obtain ⟨pages, hpages⟩ := exists_pages_of_run hsettled hsize hunsupplied hrun
      have hwalk := run_pageWalk_unsupplied hsettled hsize hunsupplied hpages
      rw [run_kmalloc_small hsettled hoffset hsize hunsupplied hwalk] at hrun
      have hfit : NoFit hhdmOffset size state.bytes ∨ WrapsToNull hhdmOffset size state.bytes :=
        @noFit_of_run_kmallocIn { state with memoryLock := 1 } state _ _ hrun
      exact ⟨hsize, ⟨pages, hpages⟩, hfit.resolve_right hwraps⟩

/-- No memory at all, and zeros everywhere behind the direct map. -/
def noMemory : AllocatorState where
  bytes := fun _ ↦ 0
  context := { freelist := { segments := fun _ ↦ ⟨0, 0⟩, cursor := 0 }, heapPages := 0 }
  memoryLock := 0

theorem settled_noMemory : Settled noMemory := ⟨rfl, by decide, by decide⟩

theorem unsupplied_noMemory (hsize : size ≤ 2 ^ 63) : Unsupplied size noMemory := by
  unfold Unsupplied
  split_ifs
  · exact ⟨by omega, fun index hindex ↦ absurd hindex (Nat.not_lt_zero index)⟩
  · refine ⟨fun pages page hpath hne ↦ ?_, fun index hindex ↦ absurd hindex (Nat.not_lt_zero index)⟩
    cases pages with
    | nil => exact absurd (show 0 = page from hpath).symm hne
    | cons first pages => exact absurd hpath.1.symm hpath.2.1

theorem kmalloc_null_noMemory : RefusedProperly 0xffff800000000000 64 noMemory ↔
    run exec (kmalloc 0xffff800000000000 64) noMemory = some (0, noMemory) ∧
      ¬ WrapsToNull 0xffff800000000000 64 noMemory.bytes :=
  kmalloc_null_iff settled_noMemory rfl (by norm_num) (unsupplied_noMemory (by norm_num))

/-- Without any memory, `kmalloc(5000)` answers a pointer. -/
theorem kmalloc_not_null : Settled noMemory ∧ Unsupplied 5000 noMemory ∧
    run exec (kmalloc 0xffff800000000000 5000) noMemory =
      some (0xffff800000000028, noMemory) ∧
    run exec (kmalloc 0xffff800000000000 5000) noMemory ≠ some (0, noMemory) := by
  have hunsupplied : Unsupplied 5000 noMemory := unsupplied_noMemory (by norm_num)
  have hrun : run exec (kmalloc 0xffff800000000000 5000) noMemory =
      some (0xffff800000000028, noMemory) :=
    run_kmalloc_large settled_noMemory (by norm_num) (by norm_num) hunsupplied
  refine ⟨settled_noMemory, hunsupplied, hrun, ?_⟩
  rw [hrun]
  intro hnull
  cases hnull

end Exhausted

end SideHOS.Heap
