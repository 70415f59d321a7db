import SideHOS.Heap.Effects

/-!
# What a call of the heap does

`kmalloc` and `kfree` on a state that represents a heap layout.  A `kmalloc` whose frame request
is granted answers a new block; a `kfree` of a live block takes it away.  Both leave a state that
represents the new layout, with the lock free.
-/

namespace SideHOS.Heap

open Kernel Linked Machine Machine.Word64 Machine.ByteMemory Sharing Sharing.Program

def HasPage (totalSize : ℕ) (state : AllocatorState) : Prop :=
  ∃ pages, Chain 0 (pageNext state.bytes) state.context.heapPages pages ∧
    ∃ page ∈ pages, totalSize ≤ pageLargest state.bytes page

/-- The segment table has the frames of a large request; for a small one a page of the heap has
room, or the table has a frame. -/
def Granted (size : ℕ) (state : AllocatorState) : Prop :=
  if 4040 < size then Frames.Affords state.context.freelist (frameCounts size)
  else HasPage (size + 8) state ∨ Frames.Affords state.context.freelist 1

/-- A block of 0 bytes would be carved from the last 24 bytes of a page: the first page with 8 bytes
to spare has its first node of 8 bytes or more there. -/
def TightFit (state : AllocatorState) : Prop :=
  ∃ pages page nodes, Chain 0 (pageNext state.bytes) state.context.heapPages pages ∧
    pages.find? (fun page ↦ decide (8 ≤ pageLargest state.bytes page)) = some page ∧
    Chain 0 (nodeNext state.bytes) (load64 state.bytes page) nodes ∧
    nodes.find? (fun node ↦ decide (8 ≤ load64 state.bytes node)) = some (page + 4072)

section Calls

variable {mapping : Mapping} {state after : AllocatorState} {heap next : Layout} {page : Page}
  {block : Block} {frame size count totalSize : ℕ}

theorem run_lockAcquire {α : Type} (body : Code α) (hlock : state.memoryLock = 0) :
    run exec (.await .lockAcquire body) state = run exec body { state with memoryLock := 1 } := by
  simp [run, exec, hlock]

/-! ## New frames -/

theorem run_newFrame (hsound : Frames.Sound state.context.freelist)
    (hrun : run exec (memoryAllocateFrame mapping.hhdmOffset) state = some (frame, after))
    (hframe : frame ≠ 0) :
    after.bytes = Frames.heapPageImage state.bytes (add frame mapping.hhdmOffset)
        state.context.heapPages ∧
      after.context.heapPages = add frame mapping.hhdmOffset := by
  rw [Frames.run_memoryAllocateFrame hsound] at hrun
  obtain ⟨index, -, htaken⟩ := Frames.exists_taken_of_ne_zero (Option.some.inj hrun) hframe
  obtain ⟨rfl, rfl⟩ := Prod.mk.inj htaken
  exact ⟨rfl, rfl⟩

theorem run_newFrames (hsound : Frames.Sound state.context.freelist) (hcount : 1 ≤ count)
    (hrun : run exec (memoryAllocateFrames mapping.hhdmOffset count) state = some (frame, after))
    (hframe : frame ≠ 0) :
    after.bytes = Frames.blockImage state.bytes (add frame mapping.hhdmOffset) count ∧
      after.context.heapPages = state.context.heapPages := by
  rw [Frames.run_memoryAllocateFrames hsound hcount] at hrun
  obtain ⟨index, -, htaken⟩ := Frames.exists_taken_of_ne_zero (Option.some.inj hrun) hframe
  obtain ⟨rfl, rfl⟩ := Prod.mk.inj htaken
  exact ⟨rfl, rfl⟩

/-- A frame that `memory_allocate_frame` answers is the first page of the heap. -/
theorem Represents.newPage (h : Represents mapping state heap)
    (hrun : run exec (memoryAllocateFrame mapping.hhdmOffset) state = some (frame, after))
    (hframe : frame ≠ 0) :
    add frame mapping.hhdmOffset = frame + mapping.hhdmOffset ∧
      after.context.freelist.cursor = state.context.freelist.cursor ∧
      Represents mapping after
        { heap with pages := Page.fresh (frame + mapping.hhdmOffset) :: heap.pages } := by
  obtain ⟨frame', after', hrun', hallocated⟩ :=
    Frames.memoryAllocateFrame_spec mapping.hhdmOffset h.sound
  obtain ⟨rfl, rfl⟩ := Prod.mk.inj (Option.some.inj (hrun'.symm.trans hrun))
  obtain ⟨hle, hadd⟩ := h.taken_facts one_pos hallocated hframe
  obtain ⟨hbytes, hpages⟩ := run_newFrame h.sound hrun hframe
  rw [hadd] at hbytes hpages
  refine ⟨hadd, hallocated.cursor_eq, h.addPage hallocated.sound ?_ hbytes hpages⟩
  simpa only [strided_one] using hallocated.free_eq hframe

/-! ## Small blocks -/

theorem Represents.pageLargest_eq (h : Represents mapping state heap) (hpage : page ∈ heap.pages) :
    pageLargest state.bytes page.base = page.largest := by
  have hword := (h.page_facts hpage).2.2
  have hadd : add page.base 16 = page.base + 16 := add_of_lt (by omega)
  rw [pageLargest, hadd]
  exact (h.pages page hpage).largest

theorem Represents.hasPage_iff (h : Represents mapping state heap) :
    HasPage totalSize state ↔ ∃ page ∈ heap.pages, totalSize ≤ page.largest := by
  constructor
  · rintro ⟨pages, hchain, base, hbase, hlargest⟩
    rw [hchain.unique h.chain, List.mem_map] at hbase
    obtain ⟨page, hpage, rfl⟩ := hbase
    rw [h.pageLargest_eq hpage] at hlargest
    exact ⟨page, hpage, hlargest⟩
  · rintro ⟨page, hpage, hlargest⟩
    refine ⟨_, h.chain, page.base, List.mem_map_of_mem hpage, ?_⟩
    rwa [h.pageLargest_eq hpage]

/-- The page walk of `kmalloc` answers the first page whose `largest` is large enough. -/
theorem Represents.run_pageWalk (h : Represents mapping state heap) :
    run exec (pageWalk totalSize walkFuel state.context.heapPages) state =
      some (((heap.pages.find? fun page ↦ decide (totalSize ≤ page.largest)).elim 0 Page.base),
        state) := by
  have hcells : ∀ cell ∈ heap.pages.map Page.base, cell < 2 ^ 64 := by
    intro cell hcell
    obtain ⟨page, hpage, rfl⟩ := List.mem_map.mp hcell
    have hword := (h.page_facts hpage).2.2
    omega
  have hfuel := Chain.length_lt h.chain hcells (by norm_num)
  rw [← walkFuel] at hfuel
  rw [Heap.run_pageWalk h.chain hfuel]
  have htest (page : Page) (hpage : page ∈ heap.pages) :
      decide (pageLargest state.bytes page.base < totalSize) =
        !decide (totalSize ≤ page.largest) := by
    rw [h.pageLargest_eq hpage]
    simp only [← decide_not, not_le]
  cases hfind : heap.pages.find? fun page ↦ decide (totalSize ≤ page.largest) with
  | none =>
    rw [List.find?_eq_none] at hfind
    have hall : ∀ cell ∈ heap.pages.map Page.base,
        decide (pageLargest state.bytes cell < totalSize) = true := by
      intro cell hcell
      obtain ⟨page, hpage, rfl⟩ := List.mem_map.mp hcell
      rw [htest page hpage]
      simpa using hfind page hpage
    rw [(takeWhile_all hall).2]
    rfl
  | some page =>
    obtain ⟨hlargest, front, back, hpages, hfront⟩ := List.find?_eq_some_iff_append.mp hfind
    have hmem : page ∈ heap.pages := mem_of_eq_middle hpages
    have hbefore : ∀ cell ∈ front.map Page.base,
        decide (pageLargest state.bytes cell < totalSize) = true := by
      intro cell hcell
      obtain ⟨other, hother, rfl⟩ := List.mem_map.mp hcell
      rw [htest other (by rw [hpages]; exact mem_middle.mpr (Or.inr (Or.inl hother)))]
      exact hfront other hother
    rw [hpages, List.map_append, List.map_cons, (takeWhile_split hbefore (by
      rw [htest page hmem]
      simpa using hlargest)).2]
    rfl

/-- Without a page that has room, `kmalloc` asks for a frame. -/
theorem Represents.run_choosePage_of_small (h : Represents mapping state heap)
    (hsmall : ∀ page ∈ heap.pages, page.largest < totalSize) :
    run exec (choosePage mapping.hhdmOffset totalSize) state =
      (run exec (memoryAllocateFrame mapping.hhdmOffset) state).map fun result ↦
        (add result.1 mapping.hhdmOffset, result.2) := by
  have hwalk : run exec (pageWalk totalSize walkFuel state.context.heapPages) state =
      some (0, state) := by
    rw [h.run_pageWalk, List.find?_eq_none.mpr fun page hpage ↦ by simpa using hsmall page hpage]
    rfl
  unfold choosePage
  rw [run_loadHeapPages, run_bind_of_eq hwalk, if_pos rfl, run_bind]
  cases run exec (memoryAllocateFrame mapping.hhdmOffset) state <;> rfl

/-- `kmalloc` finds or makes a page with a node that is long enough. -/
theorem Represents.run_choosePage (h : Represents mapping state heap) (htotal : totalSize ≤ 4048)
    (hgranted : HasPage totalSize state ∨ Frames.Affords state.context.freelist 1) :
    ∃ pages front page back middle,
      run exec (choosePage mapping.hhdmOffset totalSize) state = some (page.base, middle) ∧
      Prepared mapping state heap totalSize middle pages ∧
      Represents mapping middle { heap with pages := pages } ∧
      pages = front ++ page :: back ∧ totalSize ≤ page.largest ∧
      ∀ other ∈ front, other.largest < totalSize := by
  have hwalk : run exec (pageWalk totalSize walkFuel state.context.heapPages) state = _ :=
    h.run_pageWalk
  cases hfind : heap.pages.find? fun page ↦ decide (totalSize ≤ page.largest) with
  | none =>
    rw [hfind] at hwalk
    obtain ⟨frame, middle, hrun, hallocated⟩ :=
      Frames.memoryAllocateFrame_spec mapping.hhdmOffset h.sound
    have hsmall : ∀ page ∈ heap.pages, page.largest < totalSize := by
      intro page hpage
      have hnone := List.find?_eq_none.mp hfind page hpage
      rwa [decide_eq_true_eq, not_le] at hnone
    have hframe : frame ≠ 0 := by
      apply hallocated.ne_zero_iff.mpr (hgranted.resolve_left _)
      rw [h.hasPage_iff]
      rintro ⟨page, hpage, hlargest⟩
      exact absurd hlargest (not_le.mpr (hsmall page hpage))
    obtain ⟨hadd, -, hnext⟩ := h.newPage hrun hframe
    have hbytes := (run_newFrame h.sound hrun hframe).1
    rw [hadd] at hbytes
    refine ⟨_, [], Page.fresh (frame + mapping.hhdmOffset), heap.pages, middle, ?_,
      Prepared.fresh hsmall hallocated hframe hbytes, hnext, rfl, htotal, by simp⟩
    rw [h.run_choosePage_of_small hsmall, hrun, Option.map_some, hadd]
    rfl
  | some page =>
    obtain ⟨hlargest, front, back, hpages, hfront⟩ := List.find?_eq_some_iff_append.mp hfind
    have hmem : page ∈ heap.pages := mem_of_eq_middle hpages
    rw [decide_eq_true_eq] at hlargest
    refine ⟨heap.pages, front, page, back, state, ?_, Prepared.found, h, hpages, hlargest,
      fun other hother ↦ by simpa using hfront other hother⟩
    unfold choosePage
    have hbase : ¬ (some page).elim 0 Page.base = 0 := (h.page_facts hmem).2.1
    rw [run_loadHeapPages, run_bind_of_eq hwalk, hfind, if_neg hbase, Option.elim_some,
      run_loadPageLargest, h.pageLargest_eq hmem, if_neg (by omega), run_pure]

/-- The mapped memory ends before the last address. -/
def Mapping.EndsBefore (mapping : Mapping) : Prop :=
  ∀ frame ∈ mapping.frames, frame + mapping.hhdmOffset + 4096 < 2 ^ 64

theorem Represents.page_end (h : Represents mapping state heap) (hend : mapping.EndsBefore)
    (hpage : page ∈ heap.pages) : page.base + 4096 < 2 ^ 64 := by
  have hmem : page.base ∈ mapped mapping.hhdmOffset mapping.frames := by
    rw [← h.frames_eq]
    exact Multiset.mem_add.mpr (Or.inr (Layout.base_mem hpage))
  obtain ⟨frame, hframe, hbase⟩ := mem_mapped.mp hmem
  rw [← hbase]
  exact hend frame hframe

/-- The searches through memory come to the first page and to its first node with room. -/
theorem Represents.find_fit (h : Represents mapping state heap) {front back : List Page}
    (hpages : heap.pages = front ++ page :: back) (hlargest : totalSize ≤ page.largest)
    (hfront : ∀ other ∈ front, other.largest < totalSize) {before behind : List Node} {node : Node}
    (hnodes : page.nodes = before ++ node :: behind) (hlength : totalSize ≤ node.length)
    (hbefore : ∀ other ∈ before, other.length < totalSize) :
    (heap.pages.map Page.base).find?
        (fun base ↦ decide (totalSize ≤ pageLargest state.bytes base)) = some page.base ∧
      (page.nodes.map Node.address).find?
        (fun address ↦ decide (totalSize ≤ load64 state.bytes address)) = some node.address := by
  have hmem : page ∈ heap.pages := mem_of_eq_middle hpages
  have hat := (h.pages page hmem).nodes
  rw [List.find?_eq_some_iff_append, List.find?_eq_some_iff_append, h.pageLargest_eq hmem,
    hat.lengths node (by rw [hnodes]; simp)]
  refine ⟨⟨decide_eq_true hlargest, front.map Page.base, back.map Page.base,
    by rw [hpages]; simp, ?_⟩, decide_eq_true hlength, before.map Node.address,
    behind.map Node.address, by rw [hnodes]; simp, ?_⟩
  · rw [List.forall_mem_map]
    intro other hother
    rw [h.pageLargest_eq (by rw [hpages]; exact mem_middle.mpr (Or.inr (Or.inl hother)))]
    simpa using hfront other hother
  · rw [List.forall_mem_map]
    intro other hother
    rw [hat.lengths other (by rw [hnodes]; simp [hother])]
    simpa using hbefore other hother

/-- Only an empty block carved from the last 24 bytes of a page starts behind its page. -/
theorem Represents.tightFit (h : Represents mapping state heap) {front back : List Page}
    (hpages : heap.pages = front ++ page :: back) (hlargest : 8 ≤ page.largest)
    (hfront : ∀ other ∈ front, other.largest < 8) {before behind : List Node} {node : Node}
    (hnodes : page.nodes = before ++ node :: behind) (hlength : 8 ≤ node.length)
    (hbefore : ∀ other ∈ before, other.length < 8) (haddress : node.address = page.base + 4072) :
    TightFit state := by
  have hmem : page ∈ heap.pages := mem_of_eq_middle hpages
  obtain ⟨hpage, hnode⟩ := h.find_fit hpages hlargest hfront hnodes hlength hbefore
  rw [haddress] at hnode
  exact ⟨_, page.base, _, h.chain, hpage, (h.pages page hmem).nodes.path, hnode⟩

/-- The page and the node that a small `kmalloc` chooses: the page may be new, and the node is the
first of the page that is long enough. -/
structure Choice (mapping : Mapping) (state : AllocatorState) (heap : Layout) (size : ℕ) where
  middle : AllocatorState
  front : List Page
  page : Page
  back : List Page
  before : List Node
  node : Node
  behind : List Node
  chooses : run exec (choosePage mapping.hhdmOffset (size + 8)) state = some (page.base, middle)
  prepared : Prepared mapping state heap (size + 8) middle (front ++ page :: back)
  represents : Represents mapping middle { heap with pages := front ++ page :: back }
  largest_le : size + 8 ≤ page.largest
  fit : page.Fit before node behind size
  first : ∀ other ∈ before, other.length < size + 8
  tight : page.base + 4096 ≤ node.address + 24 → size = 0 ∧ TightFit state

theorem Represents.exists_choice (h : Represents mapping state heap) (hsize : size ≤ 4040)
    (hgranted : Granted size state) :
    Nonempty (Choice mapping state heap size) := by
  rw [Granted, if_neg (by omega)] at hgranted
  obtain ⟨pages, front, page, back, middle, hchoose, hprepared, hmiddle, rfl, hlargest,
    hfront⟩ := h.run_choosePage (by omega) hgranted
  obtain ⟨longest, hlongest, hle⟩ := page.largest_le (by omega)
  obtain ⟨before, node, behind, hfit, hfirst⟩ := exists_fit ⟨longest, hlongest, hlargest.trans hle⟩
  refine ⟨⟨middle, front, page, back, before, node, behind, hchoose, hprepared, hmiddle, hlargest,
    hfit, hfirst, fun hbehind ↦ ?_⟩⟩
  have hnode := page.ordered.within node hfit.mem
  have hlength := hfit.le_length
  simp only [Node.extent, Extent.stop] at hnode
  obtain rfl : size = 0 := by omega
  refine ⟨rfl, ?_⟩
  generalize hpages : front ++ page :: back = pages at hprepared
  cases hprepared with
  | found =>
    exact h.tightFit hpages.symm hlargest hfront hfit.nodes_eq hlength hfirst (by omega)
  | fresh =>
    obtain rfl : front = [] := by
      by_contra hne
      obtain ⟨first, rest, rfl⟩ := List.exists_cons_of_ne_nil hne
      obtain ⟨rfl, -⟩ := List.cons.inj hpages
      exact absurd (hfront _ List.mem_cons_self) (by norm_num [Page.fresh])
    obtain ⟨rfl, -⟩ := List.cons.inj hpages
    obtain ⟨-, rfl, -⟩ := eq_of_singleton hfit.nodes_eq
    simp only [Page.fresh] at hbehind
    omega

def Choice.carved (choice : Choice mapping state heap size) : AllocatorState :=
  { choice.middle with
    bytes := carvedBytes choice.middle.bytes choice.page choice.before choice.node choice.behind
      size
    memoryLock := 0 }

def Choice.layout (choice : Choice mapping state heap size) : Layout :=
  { heap with pages := choice.front ++
      choice.page.carve choice.before choice.node choice.behind size choice.fit :: choice.back }

theorem Choice.mem (choice : Choice mapping state heap size) :
    choice.page ∈ choice.front ++ choice.page :: choice.back :=
  mem_middle.mpr (Or.inl rfl)

theorem Choice.pageAt (choice : Choice mapping state heap size) :
    PageAt choice.middle.bytes choice.page := choice.represents.pages _ choice.mem

theorem Choice.page_facts (choice : Choice mapping state heap size) :
    choice.page.base % 4096 = 0 ∧ choice.page.base ≠ 0 ∧ choice.page.base + 4096 ≤ 2 ^ 64 :=
  choice.represents.page_facts choice.mem

/-- The node has room for the size word and the request. -/
theorem Choice.node_bounds (choice : Choice mapping state heap size) :
    choice.page.base + 32 ≤ choice.node.address ∧
    choice.node.address + 24 + size ≤ choice.page.base + 4096 := by
  have hnode := choice.page.ordered.within choice.node choice.fit.mem
  have hlength := choice.fit.le_length
  simp only [Node.extent, Extent.stop] at hnode
  omega

/-- The block starts in its page, unless it is empty and meets a tight fit. -/
theorem Choice.pointer_lt (choice : Choice mapping state heap size)
    (hclear : size = 0 → ¬ TightFit state) :
    choice.node.address + 24 < choice.page.base + 4096 := by
  by_contra hbehind
  obtain ⟨hzero, htight⟩ := choice.tight (by omega)
  exact hclear hzero htight

theorem Choice.given (choice : Choice mapping state heap size) (hsize : size ≤ 4040) :
    Given mapping state heap size (choice.node.address + 24) choice.carved choice.layout :=
  Given.small hsize choice.prepared choice.represents rfl choice.largest_le choice.fit

/-- `kmalloc` of a small block with the lock taken. -/
theorem Choice.run_kmallocSmall (choice : Choice mapping state heap size)
    (hsize : size ≤ 4040) (hpointer : choice.node.address + 24 < 2 ^ 64) :
    run exec (Kernel.kmallocSmall mapping.hhdmOffset size) state =
      some (choice.node.address + 24, choice.carved) := by
  have htotal : add size 8 = size + 8 := add_of_lt (by omega)
  unfold Kernel.kmallocSmall
  simp only [sizeofU64, htotal]
  rw [run_bind_of_eq choice.chooses,
    run_kmallocIn choice.pageAt choice.page_facts.2.2 choice.fit choice.first hpointer]
  rfl

/-- The choice in a heap of one page with one node, when both have room. -/
theorem Choice.single {node : Node} (choice : Choice mapping state ⟨[page], ∅⟩ size)
    (hnodes : page.nodes = [node]) (hlargest : size + 8 ≤ page.largest) :
    choice.page = page ∧ choice.node = node := by
  have hprepared := choice.prepared
  generalize hpages : choice.front ++ choice.page :: choice.back = pages at hprepared
  generalize choice.middle = middle at hprepared
  cases hprepared with
  | found =>
    obtain ⟨-, hpage, -⟩ := eq_of_singleton hpages.symm
    have hfit := choice.fit.nodes_eq
    rw [hpage, hnodes] at hfit
    exact ⟨hpage, (eq_of_singleton hfit).2.1⟩
  | fresh hsmall =>
    exact absurd (hsmall page (List.mem_singleton_self page)) (not_lt.mpr hlargest)

theorem Represents.kmallocSmall (h : Represents mapping state heap) (hsize : size ≤ 4040)
    (hend : 0 < size ∨ mapping.EndsBefore ∨ ¬ TightFit state)
    (hgranted : Granted size state) :
    ∃ pointer after next, run exec (kmallocSmall mapping.hhdmOffset size) state =
        some (pointer, after) ∧ Given mapping state heap size pointer after next := by
  obtain ⟨choice⟩ := h.exists_choice hsize hgranted
  have hbounds := choice.node_bounds
  have hword := choice.page_facts.2.2
  have hpointer : choice.node.address + 24 < 2 ^ 64 := by
    rcases hend with hpos | hend | hclear
    · omega
    · have hbefore := choice.represents.page_end hend choice.mem
      omega
    · exact (choice.pointer_lt fun _ ↦ hclear).trans_le hword
  exact ⟨_, _, _, choice.run_kmallocSmall hsize hpointer, choice.given hsize⟩

/-! ## Large blocks -/

/-- `kmalloc` of a large block answers an address in the frames it is given. -/
theorem run_kmallocLarge (hhdmOffset size : ℕ) (state : AllocatorState) :
    run exec (Kernel.kmallocLarge hhdmOffset size) state =
      (run exec (memoryAllocateFrames hhdmOffset (frameCounts size)) state).map fun result ↦
        (add (add (add result.1 hhdmOffset) 32) 8, { result.2 with memoryLock := 0 }) := by
  rw [Kernel.kmallocLarge, run_bind]
  cases run exec (memoryAllocateFrames hhdmOffset (frameCounts size)) state <;> rfl

theorem Represents.kmallocLarge (h : Represents mapping state heap) (hsize : 4040 < size)
    (hcount : 0 < frameCounts size) (hgranted : Granted size state) :
    ∃ pointer after next, run exec (kmallocLarge mapping.hhdmOffset size) state =
        some (pointer, after) ∧ Given mapping state heap size pointer after next := by
  rw [Granted, if_pos hsize] at hgranted
  obtain ⟨frame, middle, hrun, hallocated⟩ :=
    Frames.memoryAllocateFrames_spec mapping.hhdmOffset h.sound hcount
  have hframe := hallocated.ne_zero_iff.mpr hgranted
  obtain ⟨hle, hadd⟩ := h.taken_facts hcount hallocated hframe
  obtain ⟨hbytes, hpages⟩ := run_newFrames h.sound hcount hrun hframe
  rw [hadd] at hbytes
  obtain ⟨hne, hword⟩ := h.free_facts hcount hle
  have hfirst : add (frame + mapping.hhdmOffset) 32 = frame + mapping.hhdmOffset + 32 :=
    add_of_lt (by omega)
  have hsecond : add (frame + mapping.hhdmOffset + 32) 8 = frame + mapping.hhdmOffset + 40 :=
    add_of_lt (by omega)
  refine ⟨_, _, _, ?_, Given.large hsize hcount hallocated hframe hbytes hpages⟩
  rw [run_kmallocLarge, hrun, Option.map_some, hadd, hfirst, hsecond]

/-- `kmalloc` of a small block takes the lock and goes on. -/
theorem run_kmalloc_of_le {hhdmOffset : ℕ} (hlock : state.memoryLock = 0) (hsize : size ≤ 4040) :
    run exec (kmalloc hhdmOffset size) state =
      run exec (Kernel.kmallocSmall hhdmOffset size) { state with memoryLock := 1 } := by
  unfold Kernel.kmalloc
  rw [run_lockAcquire _ hlock, if_neg (show ¬ size > smallPageMaximumSize from not_lt.mpr hsize)]

/-- `kmalloc` of a large block takes the lock and goes on. -/
theorem run_kmalloc_of_gt {hhdmOffset : ℕ} (hlock : state.memoryLock = 0) (hsize : 4040 < size) :
    run exec (kmalloc hhdmOffset size) state =
      run exec (Kernel.kmallocLarge hhdmOffset size) { state with memoryLock := 1 } := by
  unfold Kernel.kmalloc
  rw [run_lockAcquire _ hlock, if_pos (show size > smallPageMaximumSize from hsize)]

/-- `kmalloc` with its frames granted, in full. -/
theorem Represents.kmalloc_given (h : Represents mapping state heap) (hlock : state.memoryLock = 0)
    (hend : 0 < size ∨ mapping.EndsBefore ∨ ¬ TightFit state)
    (hcount : 4040 < size → 0 < frameCounts size)
    (hgranted : Granted size state) :
    ∃ pointer after next, run exec (kmalloc mapping.hhdmOffset size) state =
        some (pointer, after) ∧
      Given mapping { state with memoryLock := 1 } heap size pointer after next := by
  by_cases hsize : 4040 < size
  · rw [run_kmalloc_of_gt hlock hsize]
    exact (h.withLock 1).kmallocLarge hsize (hcount hsize) hgranted
  · rw [run_kmalloc_of_le hlock (not_lt.mp hsize)]
    exact (h.withLock 1).kmallocSmall (not_lt.mp hsize) hend hgranted

/-! ## Freeing -/

theorem pointerFrame_of_lt {base address : ℕ} (hbase : base % 4096 = 0) (hlow : base ≤ address)
    (hhigh : address < base + 4096) : pointerFrame address = base := by
  unfold pointerFrame
  omega

/-- Without wrap-around, `kmalloc` asks for as many frames as headers and block fill. -/
theorem frameCounts_of_lt (hsize : size + 4135 < 2 ^ 64) :
    frameCounts size = (size + 4135) / 4096 := by
  have hheader : add 32 8 = 40 := rfl
  have htotal : add 40 size = 40 + size := add_of_lt (by omega)
  unfold frameCounts
  simp only [sizeofHeapPage, sizeofU64, size4KB, hheader, htotal]
  unfold add sub
  omega

/-- `kfree` rounds the size word of a large block up to the frames it was given. -/
theorem frameCounts_of_word {word : ℕ} (hcount : 0 < count) (hword : word + 40 = 4096 * count)
    (hend : 4096 * count + 4096 ≤ 2 ^ 64) : frameCounts word = count := by
  rw [frameCounts_of_lt (by omega)]
  omega

theorem LargeBlock.frameCounts_word (h : LargeBlock block)
    (hword : 4096 * frameCounts block.size + 4096 ≤ 2 ^ 64) :
    frameCounts block.word = frameCounts block.size := by
  have hcount := h.count_pos
  have hlength := h.word_eq
  exact frameCounts_of_word hcount (by omega) hword

/-- The frames of a large block can be given back. -/
theorem Represents.releasable (h : Represents mapping state heap) (hblock : block ∈ heap.large)
    (hframe : block.pointer - 40 = frame + mapping.hhdmOffset)
    (hframes : mapped mapping.hhdmOffset (strided 4096 frame (frameCounts block.size)) =
      block.frames) :
    Frames.Releasable state.context.freelist frame (frameCounts block.size) := by
  obtain ⟨haligned, -, hword⟩ := h.large_facts hblock
  have hoffset := mapping.offset_aligned
  have hcount := (h.large block hblock).count_pos
  refine ⟨by omega, by omega, by omega, fun hzero ↦ ?_, ?_⟩
  · have hmem : 0 + mapping.hhdmOffset ∈ mapped mapping.hhdmOffset mapping.frames := by
      rw [← h.frames_eq]
      refine Multiset.mem_add.mpr (Or.inr (Multiset.mem_of_le (Layout.large_le hblock) ?_))
      rw [← hframes]
      exact mem_mapped.mpr ⟨0, hzero, rfl⟩
    obtain ⟨physical, hphysical, hsum⟩ := mem_mapped.mp hmem
    exact mapping.frame_ne_zero physical hphysical (by omega)
  · rw [Multiset.disjoint_left]
    intro physical hfree hmem
    refine Multiset.disjoint_left.mp (Multiset.nodup_add.mp h.nodup).2.2
      (mem_mapped.mpr ⟨physical, hfree, rfl⟩) ?_
    refine Multiset.mem_of_le (Layout.large_le hblock) ?_
    rw [← hframes]
    exact mem_mapped.mpr ⟨physical, hmem, rfl⟩

theorem run_kfreeLarge (physicalFrame size : ℕ) (state : AllocatorState) :
    run exec (Kernel.kfreeLarge physicalFrame size) state =
      (run exec (memoryFreeFrames physicalFrame (frameCounts size)) state).map fun result ↦
        (true, { result.2 with memoryLock := 0 }) := by
  rw [Kernel.kfreeLarge, run_bind]
  cases run exec (memoryFreeFrames physicalFrame (frameCounts size)) state <;> rfl

/-- `kfree` chooses its path by the size word. -/
theorem run_kfree_dispatch {hhdmOffset address : ℕ} (hlock : state.memoryLock = 0) :
    run exec (kfree hhdmOffset address) state =
      if 4040 < load64 state.bytes (sub address 8) then
        run exec (Kernel.kfreeLarge (sub (pointerFrame address) hhdmOffset)
          (load64 state.bytes (sub address 8))) { state with memoryLock := 1 }
      else
        run exec (Kernel.kfreeSmall (pointerFrame address) (sub address 8))
          { state with memoryLock := 1 } := by
  unfold Kernel.kfree
  rw [run_lockAcquire _ hlock]
  simp only [run_load, sizeofU64, run_ite]
  rfl

/-- `kfree` of an address behind a large size word gives frames back. -/
theorem run_kfree_large {hhdmOffset address : ℕ} (hlock : state.memoryLock = 0)
    (hword : 4040 < load64 state.bytes (sub address 8)) :
    run exec (kfree hhdmOffset address) state =
      (run exec (memoryFreeFrames (sub (pointerFrame address) hhdmOffset)
        (frameCounts (load64 state.bytes (sub address 8)))) { state with memoryLock := 1 }).map
          fun result ↦ (true, { result.2 with memoryLock := 0 }) := by
  rw [run_kfree_dispatch hlock, if_pos hword, run_kfreeLarge]

/-- `kfree` of a large block. -/
theorem Represents.kfreeLarge (h : Represents mapping state heap) (hlock : state.memoryLock = 0)
    (hblock : block ∈ heap.large) (hcursor : state.context.freelist.cursor < 255) :
    ∃ after next, run exec (kfree mapping.hhdmOffset block.pointer) state = some (true, after) ∧
      Reclaimed mapping state heap block after next ∧ after.memoryLock = 0 ∧
      after.context.freelist.cursor = state.context.freelist.cursor + 1 := by
  have hlarge := h.large block hblock
  obtain ⟨haligned, hne, hword⟩ := h.large_facts hblock
  have hcount := hlarge.count_pos
  have hpointer := hlarge.pointer_ge
  have hsize := hlarge.word_eq
  have hcountWord := hlarge.frameCounts_word (by omega)
  obtain ⟨frame, hframe, hframes⟩ := h.large_physical hblock
  have hvirtual : pointerFrame block.pointer = frame + mapping.hhdmOffset := by
    rw [pointerFrame_of_lt haligned (by omega) (by omega), hframe]
  have hphysical : sub (frame + mapping.hhdmOffset) mapping.hhdmOffset = frame := by
    rw [sub_of_le (by omega) (by omega)]
    omega
  have hbase : sub block.pointer 8 = block.pointer - 8 := sub_of_le (by omega) (by omega)
  obtain ⟨middle, hrun, hfreed, hnextCursor⟩ :=
    @Frames.memoryFreeFrames_spec (frameCounts block.size) frame { state with memoryLock := 1 }
      h.sound hcursor (h.releasable hblock hframe hframes)
  have hbytes : middle.bytes = state.bytes := by rw [hfreed.others]; rfl
  have hpages : middle.context.heapPages = state.context.heapPages := by rw [hfreed.others]; rfl
  refine ⟨{ middle with memoryLock := 0 }, _, ?_,
    Reclaimed.large hblock hbytes hpages hfreed.sound hframes hfreed.free_eq, rfl, hnextCursor⟩
  have hword : 4040 < load64 state.bytes (sub block.pointer 8) := by
    rw [hbase, h.words block hblock]
    omega
  rw [run_kfree_large hlock hword, hbase, h.words block hblock, hvirtual, hphysical, hcountWord,
    hrun, Option.map_some]

/-- `kfree` of a small block, found from its pointer, in full. -/
theorem Represents.run_kfree_small (h : Represents mapping state heap)
    (hlock : state.memoryLock = 0) (hpage : page ∈ heap.pages) (hblock : block ∈ page.blocks)
    (haligned : block.pointer % 4096 ≠ 0) :
    ∃ bytes, run exec (kfree mapping.hhdmOffset block.pointer) state =
        some (true, { state with bytes := bytes, memoryLock := 0 }) ∧
      PageAt bytes (page.release block hblock) ∧ Relinks page block state.bytes bytes := by
  obtain ⟨hbaseAligned, hne, hword⟩ := h.page_facts hpage
  have hwithin := page.blocks_within block hblock
  have hsize := page.size_le block hblock
  simp only [Block.slot, Extent.stop] at hwithin
  have hvirtual : pointerFrame block.pointer = page.base :=
    pointerFrame_of_lt hbaseAligned (by omega) (by omega)
  have hbase : sub block.pointer 8 = block.pointer - 8 := sub_of_le (by omega) (by omega)
  obtain ⟨bytes, hrun, hnext, hrelinks⟩ :=
    @run_kfreeSmall { state with memoryLock := 1 } page block (h.pages page hpage) hword hblock
  have hmemWord : load64 state.bytes (block.pointer - 8) = block.word :=
    (h.pages page hpage).words block hblock
  refine ⟨bytes, ?_, hnext, hrelinks⟩
  rw [run_kfree_dispatch hlock, hbase, hmemWord, if_neg (by omega), hvirtual, hrun]

theorem Represents.kfreeSmall (h : Represents mapping state heap) (hlock : state.memoryLock = 0)
    (hpage : page ∈ heap.pages) (hblock : block ∈ page.blocks)
    (haligned : block.pointer % 4096 ≠ 0) :
    ∃ after next, run exec (kfree mapping.hhdmOffset block.pointer) state = some (true, after) ∧
      Reclaimed mapping state heap block after next ∧ after.memoryLock = 0 ∧
      after.context.freelist.cursor = state.context.freelist.cursor := by
  obtain ⟨front, back, hpages⟩ := List.append_of_mem hpage
  obtain ⟨bytes, hrun, hnext, hrelinks⟩ := h.run_kfree_small hlock hpage hblock haligned
  exact ⟨{ state with bytes := bytes, memoryLock := 0 }, _, hrun,
    Reclaimed.small hpages hblock rfl hnext hrelinks.touches, rfl, rfl⟩

/-- `kfree` of a live block, in full. -/
theorem Represents.kfree_reclaimed (h : Represents mapping state heap)
    (hlock : state.memoryLock = 0) (hblock : heap.Live block)
    (haligned : block.pointer % 4096 ≠ 0)
    (hcursor : 4040 < block.size → state.context.freelist.cursor < 255) :
    ∃ after next, run exec (kfree mapping.hhdmOffset block.pointer) state = some (true, after) ∧
      Reclaimed mapping state heap block after next ∧ after.memoryLock = 0 ∧
      after.context.freelist.cursor =
        state.context.freelist.cursor + if 4040 < block.size then 1 else 0 := by
  rcases hblock with hlarge | ⟨page, hpage, hblock⟩
  · have hsize := (h.large block hlarge).size_gt
    rw [if_pos hsize]
    exact h.kfreeLarge hlock hlarge (hcursor hsize)
  · rw [if_neg (not_lt.mpr (Page.size_le_small hblock)), add_zero]
    exact h.kfreeSmall hlock hpage hblock haligned

end Calls

end SideHOS.Heap
