import SideHOS.Shell.Blocks

/-!
# The blocks on `PointerStore`

`free` passes the block of the last `malloc` to `kfree`, as long as `PointerStore` lists every block
in the order of allocation.  It does until a `malloc` finds 255 pointers: `pointer_push` refuses the
next one, and the block is lost.
-/

namespace SideHOS.Shell

open Kernel Machine Machine.Word64 Sharing Sharing.Program Serial Transition

/-- Only `malloc` and `free` are given; a `malloc` gets its frames, and a `free` finds an unused
entry of the segment table. -/
def Supplied (t : Taken ShellConfig ShellEvent) : Prop :=
  (t.label.line = textBytes "malloc" ∧ Heap.Granted 5000 t.before.state.allocator) ∨
    (t.label.line = textBytes "free" ∧ t.before.state.allocator.context.freelist.cursor < 255)

/-- `PointerStore` lists the blocks that `malloc` obtained and that were not passed to `kfree`, in
order, each once. -/
def Listed (config : ShellConfig) : Prop :=
  listed config.state.pointerStore = config.blocks ∧ config.blocks.Nodup

def freedPointers (store : PointerList) : List ℕ := if top store = 0 then [] else [top store]

/-- The blocks are listed afterwards, and a `free` has passed the last one to `kfree`. -/
def KeepsBlocks (t : Taken ShellConfig ShellEvent) : Prop :=
  Listed t.after ∧ (t.label.line = textBytes "free" →
    t.before.blocks = t.after.blocks ++ freedPointers t.before.state.pointerStore)

/-- A `malloc` finds fewer than 255 pointers. -/
def HasRoom (t : Taken ShellConfig ShellEvent) : Prop :=
  t.label.line = textBytes "malloc" → t.before.state.pointerStore.cursor ≠ 255

/-- The blocks are those on `PointerStore`, and each has frames. -/
structure Stored (mapping : Heap.Mapping) (config : ShellConfig) (origins : List ℕ) : Prop
    extends ListsBlocks mapping config origins where
  ne_zero : ∀ frame ∈ origins, frame ≠ 0
  blocks_eq : config.blocks = origins.map (blockPointer mapping.hhdmOffset)

section Stored

variable {mapping : Heap.Mapping} {config before after : ShellConfig} {event : ShellEvent}
  {origins : List ℕ}

theorem coe_le_blockFrames (hne : ∀ frame ∈ origins, frame ≠ 0) :
    (origins : Multiset ℕ) ≤ blockFrames origins := by
  induction origins with
  | nil => exact le_rfl
  | cons frame origins ih =>
    rw [List.forall_mem_cons] at hne
    have hsplit : blockFrames (frame :: origins) = strided 4096 frame 2 + blockFrames origins := by
      rw [blockFrames, List.map_cons, List.sum_cons, if_neg hne.1, blockFrames]
    have hfirst : {frame} ≤ strided 4096 frame 2 :=
      Multiset.singleton_le.mpr (mem_strided.mpr ⟨0, two_pos, rfl⟩)
    rw [hsplit, ← Multiset.cons_coe, ← Multiset.singleton_add]
    exact add_le_add hfirst (ih hne.2)

/-- Blocks with frames have different pointers. -/
theorem Backed.nodup_pointers {allocator : AllocatorState} {obtained : Multiset ℕ}
    (h : Backed mapping allocator obtained origins) (hne : ∀ frame ∈ origins, frame ≠ 0) :
    (origins.map (blockPointer mapping.hhdmOffset)).Nodup := by
  have hle : (origins : Multiset ℕ) ≤ mapping.frames :=
    calc (origins : Multiset ℕ) ≤ blockFrames origins := coe_le_blockFrames hne
      _ ≤ obtained + blockFrames origins := Multiset.le_add_left _ _
      _ ≤ mapping.frames := h.held_le
  have hnodup : origins.Nodup := Multiset.coe_nodup.mp (Multiset.nodup_of_le hle mapping.nodup)
  refine hnodup.map_on fun first hfirst second hsecond heq ↦ ?_
  rw [blockPointer_of_le (h.block_mapped hfirst (hne first hfirst)).2,
    blockPointer_of_le (h.block_mapped hsecond (hne second hsecond)).2] at heq
  omega

theorem Stored.listed (h : Stored mapping config origins) : Listed config :=
  ⟨h.listed_eq.trans h.blocks_eq.symm, h.blocks_eq ▸ h.backed.nodup_pointers h.ne_zero⟩

/-- With room, a `malloc` adds its block. -/
theorem Stored.pushed {next : ShellState} {addr : ℕ} (h : Stored mapping config origins)
    (hgranted : Heap.Granted 5000 config.state.allocator)
    (hrun : run execShell (kshell mapping.hhdmOffset (textBytes "malloc")) config.state =
      some ((), next))
    (hcall : run exec (kmalloc mapping.hhdmOffset 5000) config.state.allocator =
      some (addr, next.allocator)) (hroom : config.state.pointerStore.cursor ≠ 255) :
    ∃ frame, Stored mapping
      { config with
        state := next
        blocks := if addr = 0 then config.blocks else config.blocks ++ [addr] }
      (origins ++ [frame]) := by
  obtain ⟨frame, rfl, hne, hframe, -, hnext⟩ := h.malloc hrun hcall
  rw [if_neg hroom] at hnext
  refine ⟨frame, hnext _, ?_, ?_⟩
  · rw [List.forall_mem_append, List.forall_mem_singleton]
    exact ⟨h.ne_zero, hframe hgranted⟩
  · rw [List.map_append, List.map_singleton, ← h.blocks_eq]
    exact if_neg hne

/-- A `free` takes the last block away. -/
theorem Stored.popped {next : ShellState} (h : Stored mapping config origins)
    (hrun : run execShell (kshell mapping.hhdmOffset (textBytes "free")) config.state =
      some ((), next)) :
    ∃ front, Stored mapping
        { config with
          state := next
          blocks := if top config.state.pointerStore = 0 then config.blocks
            else config.blocks.erase (top config.state.pointerStore) } front ∧
      config.blocks = front.map (blockPointer mapping.hhdmOffset) ++
        freedPointers config.state.pointerStore := by
  by_cases hempty : config.state.pointerStore.cursor = 0
  · have htop := (popped_empty hempty).1
    rw [freedPointers, if_pos htop, if_pos htop]
    refine ⟨origins, ⟨h.free_nothing hempty hrun, h.ne_zero, h.blocks_eq⟩, ?_⟩
    rw [List.append_nil]
    exact h.blocks_eq
  · obtain ⟨front, frame, rfl, htop, -⟩ := h.exists_top hempty
    have hne := h.ne_zero
    rw [List.forall_mem_append, List.forall_mem_singleton] at hne
    obtain ⟨htopne, hnext⟩ := h.free hne.2 hrun
    have hblocks := h.blocks_eq
    rw [List.map_append, List.map_singleton, ← htop] at hblocks
    have hnodup := h.listed.2
    rw [hblocks, List.nodup_append_comm, List.singleton_append, List.nodup_cons] at hnodup
    have herase : config.blocks.erase (top config.state.pointerStore) =
        front.map (blockPointer mapping.hhdmOffset) := by
      rw [hblocks, List.erase_append_right _ hnodup.1, List.erase_cons_head, List.append_nil]
    rw [freedPointers, if_neg htopne, if_neg htopne]
    exact ⟨front, ⟨hnext, hne.1, herase⟩, hblocks⟩

/-- Without room, the block of a `malloc` is not listed. -/
theorem Stored.not_listed {next : ShellState} {addr : ℕ} (h : Stored mapping config origins)
    (hrun : run execShell (kshell mapping.hhdmOffset (textBytes "malloc")) config.state =
      some ((), next))
    (hcall : run exec (kmalloc mapping.hhdmOffset 5000) config.state.allocator =
      some (addr, next.allocator)) (hfull : config.state.pointerStore.cursor = 255) :
    ¬ Listed
      { config with
        state := next
        blocks := if addr = 0 then config.blocks else config.blocks ++ [addr] } := by
  obtain ⟨frame, -, hne, -, -, hnext⟩ := h.malloc hrun hcall
  rw [if_pos hfull] at hnext
  intro hlisted
  have hsame := congrArg List.length ((hnext config.blocks).listed_eq.symm.trans hlisted.1)
  simp only [if_neg hne, h.blocks_eq, List.length_append, List.length_map,
    List.length_singleton] at hsame
  omega

theorem not_supplied {line : List UInt8} {released : Multiset ℕ}
    (hmalloc : line ≠ textBytes "malloc") (hfree : line ≠ textBytes "free") :
    ¬ Supplied ⟨before, ⟨line, released⟩, after⟩ := by
  rintro (⟨hline, -⟩ | ⟨hline, -⟩)
  · exact hmalloc hline
  · exact hfree hline

/-- One line keeps the blocks listed if and only if it has room. -/
theorem ShellStep.hasRoom_iff (h : Stored mapping before origins)
    (hstep : ShellStep mapping.hhdmOffset before event after)
    (hsupplied : Supplied ⟨before, event, after⟩) :
    (HasRoom ⟨before, event, after⟩ ↔ KeepsBlocks ⟨before, event, after⟩) ∧
      (HasRoom ⟨before, event, after⟩ → ∃ origins', Stored mapping after origins') := by
  have hnames : textBytes "malloc" ≠ textBytes "free" := by decide
  cases hstep with
  | @malloc next addr hrun hcall =>
    have hgranted : Heap.Granted 5000 before.state.allocator :=
      (hsupplied.resolve_right fun hfree ↦ hnames hfree.1).2
    have hstored (hroom : before.state.pointerStore.cursor ≠ 255) :=
      h.pushed hgranted hrun hcall hroom
    refine ⟨⟨fun hroom ↦ ?_, fun hkeeps _ hfull ↦ h.not_listed hrun hcall hfull hkeeps.1⟩,
      fun hroom ↦ ?_⟩
    · obtain ⟨frame, hnext⟩ := hstored (hroom rfl)
      exact ⟨hnext.listed, fun hline ↦ absurd hline hnames⟩
    · obtain ⟨frame, hnext⟩ := hstored (hroom rfl)
      exact ⟨_, hnext⟩
  | free hrun =>
    obtain ⟨front, hnext, hblocks⟩ := h.popped hrun
    have hroom (after : ShellConfig) : HasRoom ⟨before, ⟨textBytes "free", 0⟩, after⟩ :=
      fun hline ↦ absurd hline.symm hnames
    refine ⟨iff_of_true (hroom _) ⟨hnext.listed, fun _ ↦ ?_⟩, fun _ ↦ ⟨front, hnext⟩⟩
    rw [hnext.blocks_eq]
    exact hblocks
  | frame => exact absurd hsupplied (not_supplied (by decide) (by decide))
  | frames => exact absurd hsupplied (not_supplied (by decide) (by decide))
  | freeframe => exact absurd hsupplied (not_supplied (by decide) (by decide))
  | freeframes => exact absurd hsupplied (not_supplied (by decide) (by decide))
  | other hline =>
    exact absurd hsupplied (not_supplied (hline _ (by simp)) (hline _ (by simp)))

end Stored

/-! ## Histories -/

section Histories

variable {hhdmOffset : ℕ} {start final : ShellConfig} {taken : List (Taken ShellConfig ShellEvent)}

theorem ShellBooted.stored (h : ShellBooted hhdmOffset start) : Stored h.mapping start [] :=
  ⟨h.listsBlocks, by simp, h.blocks_eq⟩

/-- Over a whole history of `malloc` and `free`: the blocks stay listed and the last one is freed
first if and only if every `malloc` found room. -/
theorem blocks_listed_iff (hboot : ShellBooted hhdmOffset start)
    (hrun : Run (ShellStep hhdmOffset) start taken final)
    (hsupplied : ∀ t ∈ taken, Supplied t) :
    (∀ t ∈ taken, KeepsBlocks t) ↔ ∀ t ∈ taken, HasRoom t := by
  have hstep (before : ShellConfig) (event : ShellEvent) (after : ShellConfig)
      (hstored : ∃ origins, Stored hboot.mapping before origins)
      (hlast : ShellStep hhdmOffset before event after)
      (hmet : Supplied ⟨before, event, after⟩) :
      (HasRoom ⟨before, event, after⟩ ↔ KeepsBlocks ⟨before, event, after⟩) ∧
        (HasRoom ⟨before, event, after⟩ → ∃ origins, Stored hboot.mapping after origins) := by
    obtain ⟨origins, horigins⟩ := hstored
    exact hlast.hasRoom_iff horigins hmet
  have hboth := Run.forall_iff_of ⟨[], hboot.stored⟩
    (fun _ _ _ hstored hlast hmet ↦ (hstep _ _ _ hstored hlast hmet).2)
    (fun _ _ _ hstored hlast hmet ↦ (hstep _ _ _ hstored hlast hmet).1) hrun hsupplied
  exact hboth.symm

/-! ## Mallocs on one segment -/

theorem free_of_single {freelist : FreeList} (hcursor : freelist.cursor = 1) :
    Frames.free freelist = Frames.segmentFrames (freelist.segments 0) := by
  rw [Frames.free, hcursor, Frames.frames, Finset.sum_range_one]

/-- A table of one segment grants what it describes. -/
theorem granted_of_card {state : AllocatorState}
    (hcursor : state.context.freelist.cursor = 1)
    (hcard : 2 ≤ (Frames.free state.context.freelist).card) :
    Heap.Granted 5000 state := by
  rw [free_of_single hcursor, Frames.segmentFrames, card_strided] at hcard
  have hindex : 0 < Frames.scanLimit state.context.freelist := by
    rw [Frames.scanLimit_of_lt (by omega), hcursor]
    exact one_pos
  refine Heap.granted_of_affords ?_ ⟨0, hindex, ?_⟩
  · rw [frameCounts_malloc]
    exact two_pos
  · rw [frameCounts_malloc]
    exact hcard

theorem card_free_startShell (count : ℕ) :
    (Frames.free (startShell count).state.allocator.context.freelist).card = count := by
  rw [free_of_single rfl, Frames.segmentFrames, card_strided]
  rfl

/-- A granted `malloc` line is answered and takes two frames. -/
theorem exists_malloc {config : ShellConfig}
    (hsound : Frames.Sound config.state.allocator.context.freelist)
    (hlock : config.state.allocator.memoryLock = 0)
    (hgranted : Heap.Granted 5000 config.state.allocator) :
    ∃ addr after, run execShell (kshell hhdmOffset (textBytes "malloc")) config.state =
        some ((), after) ∧
      run exec (kmalloc hhdmOffset 5000) config.state.allocator = some (addr, after.allocator) ∧
      after.allocator.memoryLock = 0 ∧
      after.allocator.context.freelist.cursor = config.state.allocator.context.freelist.cursor ∧
      (Frames.free after.allocator.context.freelist).card + 2 =
        (Frames.free config.state.allocator.context.freelist).card := by
  obtain ⟨frame, middle, hspec, hallocated⟩ := @Frames.memoryAllocateFrames_spec 2
    { config.state.allocator with memoryLock := 1 } hhdmOffset hsound one_le_two
  have hcall : run exec (kmalloc hhdmOffset 5000) config.state.allocator =
      some (blockPointer hhdmOffset frame, { middle with memoryLock := 0 }) := by
    rw [run_kmalloc_block hlock, hspec]
    rfl
  have hframe : frame ≠ 0 := by
    rw [Heap.Granted, if_pos (by norm_num), frameCounts_malloc] at hgranted
    exact hallocated.ne_zero_iff.mpr hgranted
  obtain ⟨output, hanswered⟩ := run_mallocCommand hcall
  rw [← kshell_malloc] at hanswered
  have hcard := congrArg Multiset.card (hallocated.free_eq hframe)
  rw [Multiset.card_add, card_strided] at hcard
  exact ⟨_, _, hanswered, hcall, rfl, hallocated.cursor_eq, hcard⟩

/-- After `count` mallocs from 512 frames. -/
structure Filled (mapping : Heap.Mapping) (config : ShellConfig) (count : ℕ) : Prop where
  stored : ∃ origins, Stored mapping config origins
  lock_eq : config.state.allocator.memoryLock = 0
  entries_eq : config.state.allocator.context.freelist.cursor = 1
  card_eq : (Frames.free config.state.allocator.context.freelist).card + 2 * count = 512
  cursor_eq : config.state.pointerStore.cursor = count

/-- One more `malloc` fills one more entry, and the 256th block is not listed. -/
theorem Filled.malloc {mapping : Heap.Mapping} {config : ShellConfig} {count : ℕ}
    (h : Filled mapping config count) (hcount : count ≤ 255) :
    ∃ next, ShellStep mapping.hhdmOffset config ⟨textBytes "malloc", 0⟩ next ∧
      Supplied ⟨config, ⟨textBytes "malloc", 0⟩, next⟩ ∧
      (count < 255 → HasRoom ⟨config, ⟨textBytes "malloc", 0⟩, next⟩ ∧
        Filled mapping next (count + 1)) ∧ (count = 255 → ¬ Listed next) := by
  obtain ⟨origins, hstored⟩ := h.stored
  have hsound := hstored.backed.consistent.sound
  have hcard := h.card_eq
  have hgranted : Heap.Granted 5000 config.state.allocator :=
    granted_of_card h.entries_eq (by omega)
  obtain ⟨addr, after, hanswered, hcall, hlock, hentries, htaken⟩ :=
    exists_malloc hsound h.lock_eq hgranted
  have hstep := ShellStep.malloc hanswered hcall
  refine ⟨_, hstep, Or.inl ⟨rfl, hgranted⟩, fun hroom ↦ ?_, fun hfull ↦ ?_⟩
  · have hne : config.state.pointerStore.cursor ≠ 255 := by
      rw [h.cursor_eq]
      exact hroom.ne
    obtain ⟨frame, hnext⟩ := hstored.pushed hgranted hanswered hcall hne
    refine ⟨fun _ ↦ hne, ⟨_, hnext⟩, hlock, hentries.trans h.entries_eq, ?_, ?_⟩
    · change (Frames.free after.allocator.context.freelist).card + 2 * (count + 1) = 512
      omega
    · have hlength := congrArg List.length hnext.listed_eq
      have hbefore := congrArg List.length hstored.listed_eq
      rw [length_listed, List.length_map] at hlength hbefore
      rw [hlength, List.length_append, List.length_singleton, ← hbefore, h.cursor_eq]
  · exact hstored.not_listed hanswered hcall (h.cursor_eq.trans hfull)

/-- `PointerStore` takes 255 pointers. -/
theorem Filled.exists_run {mapping : Heap.Mapping} (h : Filled mapping start 0) {count : ℕ}
    (hcount : count ≤ 255) :
    ∃ taken config, Run (ShellStep mapping.hhdmOffset) start taken config ∧
      taken.map (fun t ↦ t.label.line) = List.replicate count (textBytes "malloc") ∧
      (∀ t ∈ taken, Supplied t ∧ HasRoom t) ∧ Filled mapping config count := by
  induction count with
  | zero => exact ⟨[], start, Run.nil, rfl, by simp, h⟩
  | succ count ih =>
    obtain ⟨taken, config, hrun, hlines, hmet, hfilled⟩ := ih (by omega)
    obtain ⟨next, hstep, hlast, hnext, -⟩ := hfilled.malloc (by omega)
    obtain ⟨hroom, hfull⟩ := hnext (by omega)
    refine ⟨_, next, Run.snoc _ hrun hstep, ?_, ?_, hfull⟩
    · rw [List.map_append, hlines, List.replicate_succ']
      rfl
    · rw [List.forall_mem_append, List.forall_mem_singleton]
      exact ⟨hmet, hlast, hroom⟩

theorem filled_startShell (hbooted : ShellBooted 0 (startShell 512)) :
    Filled hbooted.mapping (startShell 512) 0 := by
  refine ⟨⟨[], hbooted.stored⟩, rfl, rfl, ?_, rfl⟩
  rw [card_free_startShell]

/-- A `free` line with a block on `PointerStore` and an unused entry of the table is answered. -/
theorem exists_free {mapping : Heap.Mapping} {config : ShellConfig}
    (hstored : ∃ origins, Stored mapping config origins)
    (hlock : config.state.allocator.memoryLock = 0)
    (hentries : config.state.allocator.context.freelist.cursor < 255)
    (hne : config.state.pointerStore.cursor ≠ 0) :
    ∃ next, ShellStep mapping.hhdmOffset config ⟨textBytes "free", 0⟩ next ∧
      (∃ origins, Stored mapping next origins) ∧ next.state.allocator.memoryLock = 0 ∧
      next.state.allocator.context.freelist.cursor =
        config.state.allocator.context.freelist.cursor + 1 ∧
      next.state.pointerStore.cursor = config.state.pointerStore.cursor - 1 := by
  obtain ⟨origins, h⟩ := hstored
  obtain ⟨front, frame, rfl, htop, -⟩ := h.exists_top hne
  have hlast : frame ∈ front ++ [frame] := List.mem_append_right _ (List.mem_singleton_self _)
  have hframe := h.ne_zero frame hlast
  have haligned := (h.backed.block_mapped hlast hframe).1
  have htopne : top config.state.pointerStore ≠ 0 := by
    rw [htop]
    exact blockPointer_ne_zero mapping.offset_aligned haligned
  have hcall := h.backed.run_kfree hframe hlock
  have hfrees := @Frames.run_memoryFreeFrames
    { config.state.allocator with memoryLock := 1 } frame 2 hentries
  rw [hfrees, ← htop] at hcall
  obtain ⟨output, hanswered⟩ := run_freeCommand htopne hcall
  rw [← kshell_free] at hanswered
  obtain ⟨rest, hnext, -⟩ := h.popped hanswered
  exact ⟨_, ShellStep.free hanswered, ⟨rest, hnext⟩, rfl, rfl,
    (listed_popped h.cursor_le hne).1⟩

/-- The 256th of 256 mallocs loses its block. -/
theorem malloc_block_lost : ∃ taken final,
    taken.map (fun t ↦ t.label.line) = List.replicate 256 (textBytes "malloc") ∧
      Run (ShellStep 0) (startShell 512) taken final ∧ (∀ t ∈ taken, Supplied t) ∧
      ¬ ∀ t ∈ taken, KeepsBlocks t := by
  have hbooted : ShellBooted 0 (startShell 512) := shellBooted_startShell (by norm_num)
  obtain ⟨taken, config, hrun, hlines, hmet, hfull⟩ :=
    (filled_startShell hbooted).exists_run le_rfl
  obtain ⟨next, hstep, hlast, -, hlost⟩ := hfull.malloc le_rfl
  refine ⟨_, next, ?_, Run.snoc _ hrun hstep, ?_, fun hkeeps ↦ ?_⟩
  · rw [List.map_append, hlines, List.map_singleton, ← List.replicate_succ']
  · rw [List.forall_mem_append, List.forall_mem_singleton]
    exact ⟨fun t ht ↦ (hmet t ht).1, hlast⟩
  · rw [List.forall_mem_append, List.forall_mem_singleton] at hkeeps
    exact hlost rfl hkeeps.2.1

/-- Two mallocs, and a `free` of each block. -/
theorem blocks_listed_malloc : ∃ taken final,
    taken.map (fun t ↦ t.label.line) =
        [textBytes "malloc", textBytes "malloc", textBytes "free", textBytes "free"] ∧
      Run (ShellStep 0) (startShell 512) taken final ∧ ∀ t ∈ taken, KeepsBlocks t := by
  have hbooted : ShellBooted 0 (startShell 512) := shellBooted_startShell (by norm_num)
  obtain ⟨taken, config, hrun, hlines, hmet, hfilled⟩ :=
    (filled_startShell hbooted).exists_run (show 2 ≤ 255 by norm_num)
  have hentries := hfilled.entries_eq
  have hcursor := hfilled.cursor_eq
  obtain ⟨middle, hfirst, hstored, hlock, hone, htop⟩ :=
    exists_free hfilled.stored hfilled.lock_eq (by omega) (by omega)
  obtain ⟨final, hsecond, -⟩ := exists_free hstored hlock (by omega) (by omega)
  have hwhole := (hrun.snoc _ hfirst).snoc _ hsecond
  have hnames : textBytes "free" ≠ textBytes "malloc" := by decide
  have hfree {before after : ShellConfig}
      (hbefore : before.state.allocator.context.freelist.cursor < 255) :
      Supplied ⟨before, ⟨textBytes "free", 0⟩, after⟩ ∧
        HasRoom ⟨before, ⟨textBytes "free", 0⟩, after⟩ :=
    ⟨Or.inr ⟨rfl, hbefore⟩, fun hline ↦ absurd hline hnames⟩
  have hall : ∀ t ∈ (taken ++ [⟨config, ⟨textBytes "free", 0⟩, middle⟩]) ++
      [⟨middle, ⟨textBytes "free", 0⟩, final⟩], Supplied t ∧ HasRoom t := by
    simp only [List.forall_mem_append, List.forall_mem_singleton]
    exact ⟨⟨hmet, hfree (by omega)⟩, hfree (by omega)⟩
  refine ⟨_, final, ?_, hwhole, (blocks_listed_iff hbooted hwhole fun t ht ↦ (hall t ht).1).mpr
    fun t ht ↦ (hall t ht).2⟩
  rw [List.map_append, List.map_append, hlines]
  rfl

end Histories

end SideHOS.Shell
