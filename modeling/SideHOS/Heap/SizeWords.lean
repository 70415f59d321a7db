import SideHOS.Heap.Isolation

/-!
# Size words and the path of `kfree`

`kmalloc` decides between a page and frames of their own by the requested size, `kfree` by the size
word, which is larger: by slack on the one path, rounded up to whole frames on the other.  For
every live block both decide alike, because what lies behind a node in its page is too short for
the one to exceed the limit, and a frame is too long for the other to stay below it.
-/

namespace SideHOS.Heap

open Kernel Linked Machine Machine.Word64 Machine.ByteMemory Sharing Sharing.Program Transition

def Makes (t : Taken HeapConfig HeapEvent) (block : Block) : Prop :=
  t.label = .kmalloc block.size block.pointer ∧ block.pointer ≠ 0 ∧
    block = givenBlock block.size block.pointer t.after.state

/-- The block lies in a page of the heap, behind the page header and its own. -/
def CarvedFromPage (state : AllocatorState) (block : Block) : Prop :=
  ∃ pages page, Chain 0 (pageNext state.bytes) state.context.heapPages pages ∧ page ∈ pages ∧
    page + 56 ≤ block.pointer ∧ block.pointer + block.word ≤ page + 4096

/-- The call took `count` frames from the table for the block, and no heap page. -/
def TookFrames (hhdmOffset : ℕ) (t : Taken HeapConfig HeapEvent) (block : Block) (count : ℕ) :
    Prop :=
  ∃ frame, block.pointer = frame + hhdmOffset + 40 ∧
    Frames.free t.before.freelist = Frames.free t.after.freelist + strided 4096 frame count ∧
    t.after.state.context.heapPages = t.before.state.context.heapPages

/-- `kfree` releases the block into the page that holds its pointer. -/
def FreesInPage (hhdmOffset : ℕ) (state : AllocatorState) (block : Block) : Prop :=
  run exec (kfree hhdmOffset block.pointer) state =
    run exec (kfreeSmall (pointerFrame block.pointer) (sub block.pointer sizeofU64))
      { state with memoryLock := 1 }

/-- `kfree` gives frames back, from the one that holds the pointer on. -/
def FreesFrames (hhdmOffset : ℕ) (state : AllocatorState) (block : Block) : Prop :=
  run exec (kfree hhdmOffset block.pointer) state =
    run exec (kfreeLarge (addressVirtualToPhysical hhdmOffset (pointerFrame block.pointer))
      (load64 state.bytes (block.pointer - 8))) { state with memoryLock := 1 }

/-- The size word of a live block tells how its call `t` made it, and `kfree` reads it so. -/
structure SizeWordTells (hhdmOffset : ℕ) (t : Taken HeapConfig HeapEvent) (state : AllocatorState)
    (block : Block) : Prop where
  size_le : block.size ≤ load64 state.bytes (block.pointer - 8)
  page_iff : load64 state.bytes (block.pointer - 8) ≤ 4040 ↔ CarvedFromPage t.after.state block
  frames_iff : ∀ count, 1 ≤ count →
    (load64 state.bytes (block.pointer - 8) = 4096 * count - 40 ↔
      TookFrames hhdmOffset t block count)
  frees_in_page : CarvedFromPage t.after.state block → FreesInPage hhdmOffset state block
  frees_frames : ∀ count, 1 ≤ count → TookFrames hhdmOffset t block count →
    FreesFrames hhdmOffset state block

/-- The two ways in which a call makes a block: in a page, or of its own frames. -/
inductive Made (hhdmOffset : ℕ) (t : Taken HeapConfig HeapEvent) (block : Block) : Prop
  | page (hcarved : CarvedFromPage t.after.state block)
      (hnone : ∀ count, TookFrames hhdmOffset t block count → count = 0)
  | frames (hsize : 4040 < block.size) (hword : block.word = 4096 * frameCounts block.size - 40)
      (htook : TookFrames hhdmOffset t block (frameCounts block.size))

section SizeWords

variable {mapping : Mapping} {config before after : HeapConfig} {heap next : Layout}
  {block : Block} {event : HeapEvent} {state : AllocatorState} {size pointer count : ℕ}

/-- A live block was made by some call. -/
theorem HeapStep.makes {hhdmOffset : ℕ} (h : HeapStep hhdmOffset before event after)
    (hlive : block ∈ after.live) : block ∈ before.live ∨ Makes ⟨before, event, after⟩ block := by
  cases h with
  | kmalloc hrun =>
    dsimp only at hlive
    split_ifs at hlive with hzero
    · exact Or.inl hlive
    · rcases List.mem_cons.mp hlive with rfl | hlive
      · exact Or.inr ⟨rfl, hzero, rfl⟩
      · exact Or.inl hlive
  | kfree hfreed hrun => exact Or.inl (List.mem_of_mem_erase hlive)
  | write hlive' hroom => exact Or.inl hlive
  | allocateFrame hrun => exact Or.inl hlive
  | freeFrame howned hrun => exact Or.inl hlive

/-- A word that fits into a page behind both headers is small. -/
theorem CarvedFromPage.word_le (h : CarvedFromPage state block) : block.word ≤ 4040 := by
  obtain ⟨pages, page, -, -, hlow, hhigh⟩ := h
  omega

/-- A page that was added to the heap is the first, and none was before. -/
theorem Represents.heapPages_ne {middle : AllocatorState} {page : Page}
    (hheap : Represents mapping state heap)
    (hmiddle : Represents mapping middle { heap with pages := page :: heap.pages }) :
    middle.context.heapPages ≠ state.context.heapPages := by
  obtain ⟨hfirst, hne, -⟩ := hmiddle.chain
  have hnew := (List.nodup_cons.mp hmiddle.nodup_bases).1
  have hchain := hheap.chain
  rw [hfirst]
  intro heq
  cases hbases : heap.pages.map Page.base with
  | nil =>
    rw [hbases] at hchain
    exact hne (heq.trans hchain)
  | cons base bases =>
    rw [hbases] at hchain hnew
    exact hnew (heq.trans hchain.1 ▸ List.mem_cons_self)

/-- A `kmalloc` that answers a block makes it in one of the two ways. -/
theorem Given.made (h : Given mapping { before.state with memoryLock := 1 } heap size pointer
      after.state next) (hheap : Represents mapping before.state heap) :
    Made mapping.hhdmOffset ⟨before, event, after⟩ (givenBlock size pointer after.state) := by
  obtain ⟨memory, live, owned⟩ := after
  cases h with
  | @small middle pages front back page earlier later node hsize hprepared hmiddle hpages _ hfit =>
    refine Made.page ?_ ?_
    · obtain ⟨hnext, hgiven⟩ := hmiddle.carve hpages hfit
      have hwithin := (page.carve earlier node later size hfit).blocks_within
        (carvedBlock node size) (Finset.mem_insert_self _ _)
      rw [hgiven]
      refine ⟨_, page.base, hnext.chain,
        List.mem_map.mpr ⟨_, mem_middle.mpr (Or.inl rfl), rfl⟩, hwithin.1, ?_⟩
      have hstop := hwithin.2
      simp only [Block.slot, Extent.stop, Page.carve] at hstop
      omega
    · rintro count ⟨frame, -, hfree, hheapPages⟩
      cases hprepared with
      | found =>
        have hcard := congrArg Multiset.card hfree
        rw [Multiset.card_add, card_strided] at hcard
        exact Nat.add_eq_left.mp hcard.symm
      | fresh =>
        change middle.context.heapPages = before.state.context.heapPages at hheapPages
        exact absurd hheapPages ((hheap.withLock 1).heapPages_ne hmiddle)
  | large hsize hcount hallocated hframe hbytes hheapPages =>
    obtain ⟨-, hgiven, -⟩ :=
      (hheap.withLock 1).giveLarge hsize hcount hallocated hframe hbytes hheapPages rfl
    exact Made.frames hsize (load64_of_givenBlock hgiven)
      ⟨_, rfl, (hallocated.free_eq hframe).symm, hheapPages⟩

/-- The size word of a live block is where `kfree` looks for it. -/
theorem Represents.live_word (h : Represents mapping state heap) (hlive : heap.Live block) :
    load64 state.bytes (block.pointer - 8) = block.word := by
  rcases hlive with hlarge | ⟨page, hpage, hblock⟩
  · exact h.words block hlarge
  · exact (h.pages page hpage).words block hblock

theorem Represents.sub_pointer (h : Represents mapping state heap) (hlive : heap.Live block)
    (hsize : 0 < block.size) : sub block.pointer 8 = block.pointer - 8 := by
  rcases hlive with hlarge | ⟨page, hpage, hblock⟩
  · have hpointer := (h.large block hlarge).pointer_ge
    have hcount := (h.large block hlarge).count_pos
    have hword := (h.large_facts hlarge).2.2
    exact sub_of_le (by omega) (by omega)
  · have hword := (h.page_facts hpage).2.2
    have hwithin := page.blocks_within block hblock
    have hle := page.size_le block hblock
    simp only [Block.slot, Extent.stop] at hwithin
    exact sub_of_le (by omega) (by omega)

/-- A call took a definite number of frames. -/
theorem TookFrames.unique {hhdmOffset other : ℕ} {t : Taken HeapConfig HeapEvent}
    (h : TookFrames hhdmOffset t block count) (hother : TookFrames hhdmOffset t block other) :
    count = other := by
  obtain ⟨_, -, hfree, -⟩ := h
  obtain ⟨_, -, hfree', -⟩ := hother
  have hcard := congrArg Multiset.card (hfree.symm.trans hfree')
  rw [Multiset.card_add, Multiset.card_add, card_strided, card_strided] at hcard
  omega

/-- What a call made, a later `kfree` can tell from the size word. -/
theorem Serves.sizeWordTells (h : Serves mapping maximumSize config heap)
    (hlive : block ∈ config.live) {t : Taken HeapConfig HeapEvent}
    (hmade : Made mapping.hhdmOffset t block) :
    SizeWordTells mapping.hhdmOffset t config.state block := by
  have hheap := (h.live_iff block).mp hlive
  have hword := h.represents.live_word hheap
  have hbase := h.represents.sub_pointer hheap (h.sizes block hlive).1
  have hle := h.size_le_word maximumSize_lt hlive
  have hdispatch := @run_kfree_dispatch config.state mapping.hhdmOffset block.pointer h.lock_eq
  rw [hbase, hword] at hdispatch
  cases hmade with
  | page hcarved hnone =>
    have hsmall := hcarved.word_le
    have hnot (count : ℕ) (hcount : 1 ≤ count) : ¬ TookFrames mapping.hhdmOffset t block count :=
      fun htook ↦ absurd (hnone count htook) (by omega)
    rw [if_neg (by omega)] at hdispatch
    refine ⟨by omega, ?_, fun count hcount ↦ ?_, fun _ ↦ ?_, fun count hcount htook ↦
      absurd htook (hnot count hcount)⟩
    · rw [hword]
      exact iff_of_true hsmall hcarved
    · rw [hword]
      exact iff_of_false (by omega) (hnot count hcount)
    · unfold FreesInPage
      rw [hdispatch, sizeofU64, hbase]
  | frames hsize hlength htook =>
    have hnot : ¬ CarvedFromPage t.after.state block := fun hcarved ↦ by
      have hsmall := hcarved.word_le
      omega
    rw [if_pos (by omega)] at hdispatch
    refine ⟨by omega, ?_, fun count hcount ↦ ?_, fun hcarved ↦ absurd hcarved hnot, fun _ _ _ ↦ ?_⟩
    · rw [hword]
      exact iff_of_false (by omega) hnot
    · rw [hword]
      constructor
      · intro heq
        have hcounts : frameCounts block.size = count := by omega
        exact hcounts ▸ htook
      · intro hother
        rw [hlength, htook.unique hother]
    · unfold FreesFrames
      rw [hdispatch, hword]
      rfl

/-- Every call of a served heap that makes a block makes it in one of the two ways. -/
theorem Serves.made (h : Serves mapping maximumSize before heap)
    (hstep : HeapStep mapping.hhdmOffset before event after)
    (hserved : Served maximumSize ⟨before, event, after⟩)
    (hmakes : Makes ⟨before, event, after⟩ block) :
    Made mapping.hhdmOffset ⟨before, event, after⟩ block := by
  obtain ⟨hlabel, -, hblock⟩ := hmakes
  cases hstep with
  | @kmalloc size pointer memory hrun =>
    obtain ⟨hpos, hle, hgranted⟩ := hserved
    have hmaximum := maximumSize_lt
    have hcount : 0 < frameCounts size := (frameCounts_bounds (by omega)).1
    obtain ⟨-, next, -, hgiven, -⟩ :=
      h.toTracks.kmalloc_given (Or.inl hpos) (fun _ ↦ hcount) hgranted hrun
    obtain ⟨rfl, rfl⟩ := HeapEvent.kmalloc.inj hlabel
    rw [hblock]
    exact hgiven.made h.represents
  | kfree hfreed hrun => cases hlabel
  | write hlive hroom => cases hlabel
  | allocateFrame hrun => cases hlabel
  | freeFrame howned hrun => cases hlabel

/-- In every state of a run, each live block was made by a call of the run, and its size word tells
how. -/
theorem size_words_tell {hhdmOffset : ℕ} {start final : HeapConfig}
    {taken : List (Taken HeapConfig HeapEvent)} (hboot : Booted hhdmOffset start)
    (hentries : start.freelist.cursor ≤ 127) (hrun : Run (HeapStep hhdmOffset) start taken final)
    (hserved : ∀ t ∈ taken, Served maximumSize t)
    (hcursor : ∀ t ∈ taken, t.after.freelist.cursor ≤ 127) :
    ∀ block ∈ final.live, (∃ t ∈ taken, Makes t block) ∧
      ∀ t ∈ taken, Makes t block → SizeWordTells hhdmOffset t final.state block := by
  obtain ⟨⟨heap, hheap⟩, -⟩ :=
    serves_of_run hboot maximumSize_lt hentries hrun hserved hcursor
  refine fun block hlive ↦ ⟨?_, fun t ht hmakes ↦ ?_⟩
  · refine Run.exists_source (fun config ↦ block ∈ config.live) ?_ ?_ hrun hlive
    · rw [hboot.live_eq]
      exact List.not_mem_nil
    · exact fun before event after hstep ↦ hstep.makes
  · obtain ⟨earlier, hearlier, hstep, hsubset⟩ := hrun.of_mem ht
    obtain ⟨⟨layout, hlayout⟩, -⟩ := serves_of_run hboot maximumSize_lt hentries hearlier
      (fun prior hprior ↦ hserved prior (hsubset prior hprior))
      fun prior hprior ↦ hcursor prior (hsubset prior hprior)
    exact hheap.sizeWordTells hlive (hlayout.made hstep (hserved t ht) hmakes)

theorem size_words_tell_firstBlock : ∃ pointer after, pointer ≠ 0 ∧
    SizeWordTells 0 ⟨bootedHeap, .kmalloc 64 pointer, ⟨after, [givenBlock 64 pointer after], 0⟩⟩
      after (givenBlock 64 pointer after) := by
  obtain ⟨pointer, after, taken, hne, rfl, hrun, hserved, hcursor⟩ := exists_firstRun
  exact ⟨pointer, after, hne, (size_words_tell booted_bootedHeap (by decide) hrun
    (hserved _ (by norm_num [maximumSize])) hcursor _ (List.mem_singleton_self _)).2 _
      (List.mem_singleton_self _) ⟨rfl, hne, rfl⟩⟩

end SizeWords

end SideHOS.Heap
