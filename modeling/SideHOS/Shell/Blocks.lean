import SideHOS.Shell.Holdings

/-!
# The shell keeps account of its blocks

A `malloc` takes two frames for its block and pushes the address on `PointerStore`; a `free` pops
an address and gives the two frames back.  As long as no block lies in frame 0, where `kmalloc`
puts it when it got no frames, the frames of the shell stay accounted for.
-/

namespace SideHOS.Shell

open Kernel Machine Machine.Word64 Machine.ByteMemory Sharing Sharing.Program Serial

/-! ## The pointer stack as a list -/

/-- `PointerStore.entries[0..cursor)`. -/
def listed (store : PointerList) : List ℕ := (List.range store.cursor).map store.entries

section Store

variable {store : PointerList} {pointer : ℕ}

theorem length_listed : (listed store).length = store.cursor := by
  rw [listed, List.length_map, List.length_range]

theorem pushed_full (hfull : store.cursor = 255) : pushed store pointer = store := if_pos hfull

theorem listed_pushed (hcursor : store.cursor < 255) :
    (pushed store pointer).cursor = store.cursor + 1 ∧
      listed (pushed store pointer) = listed store ++ [pointer] := by
  have hnext : (store.cursor + 1) % 256 = store.cursor + 1 := Nat.mod_eq_of_lt (by omega)
  rw [pushed, if_neg (by omega), hnext]
  refine ⟨rfl, ?_⟩
  have hbelow : ∀ i ∈ List.range store.cursor,
      Function.update store.entries store.cursor pointer i = store.entries i := by
    intro i hi
    have hlt : i < store.cursor := List.mem_range.mp hi
    exact Function.update_of_ne hlt.ne _ _
  have hself : Function.update store.entries store.cursor pointer store.cursor = pointer :=
    Function.update_self ..
  rw [listed, List.range_succ, List.map_append, List.map_congr_left hbelow, List.map_singleton]
  exact congrArg (fun entry ↦ listed store ++ [entry]) hself

theorem popped_empty (hempty : store.cursor = 0) : top store = 0 ∧ popped store = store :=
  ⟨if_pos hempty, if_pos hempty⟩

theorem listed_popped (hcursor : store.cursor ≤ 255) (hne : store.cursor ≠ 0) :
    (popped store).cursor = store.cursor - 1 ∧
      listed store = listed (popped store) ++ [top store] := by
  have hlast : (store.cursor - 1) % 256 = store.cursor - 1 := Nat.mod_eq_of_lt (by omega)
  have hcount : store.cursor = store.cursor - 1 + 1 := by omega
  rw [popped, top, if_neg hne, if_neg hne, hlast]
  refine ⟨rfl, ?_⟩
  rw [listed, hcount, List.range_succ, List.map_append, List.map_singleton]
  rfl

end Store

/-! ## One block -/

section Block

variable {mapping : Heap.Mapping} {allocator after : AllocatorState} {obtained : Multiset ℕ}
  {origins : List ℕ} {frame addr count : ℕ} {ok : Bool}

theorem frameCounts_malloc : frameCounts 5000 = 2 := Heap.frameCounts_of_lt (by norm_num)

theorem frameCounts_block : frameCounts 8152 = 2 := Heap.frameCounts_of_lt (by norm_num)

/-- Whoever gets the lock finds it free. -/
theorem lock_of_run {α : Type} {body : Code α} {result : α × AllocatorState}
    (hrun : run exec (.await .lockAcquire body) allocator = some result) :
    allocator.memoryLock = 0 := by
  by_contra hlock
  simp [run, exec, hlock] at hrun

/-- `kmalloc` of 5000 bytes takes two frames, and answers an address in frame 0 without them. -/
theorem run_kmalloc_block {hhdmOffset : ℕ} (hlock : allocator.memoryLock = 0) :
    run exec (kmalloc hhdmOffset 5000) allocator =
      (run exec (memoryAllocateFrames hhdmOffset 2) { allocator with memoryLock := 1 }).map
        fun result ↦ (blockPointer hhdmOffset result.1, { result.2 with memoryLock := 0 }) := by
  have hlarge : 5000 > smallPageMaximumSize := by decide
  rw [kmalloc, Heap.run_lockAcquire _ hlock, if_pos hlarge, Heap.run_kmallocLarge,
    frameCounts_malloc]
  rfl

theorem kmalloc_block {hhdmOffset : ℕ}
    (hcall : run exec (kmalloc hhdmOffset 5000) allocator = some (addr, after)) :
    ∃ frame middle, run exec (memoryAllocateFrames hhdmOffset 2)
        { allocator with memoryLock := 1 } = some (frame, middle) ∧
      addr = blockPointer hhdmOffset frame ∧ after = { middle with memoryLock := 0 } := by
  rw [run_kmalloc_block (lock_of_run hcall), Option.map_eq_some_iff] at hcall
  obtain ⟨⟨frame, middle⟩, hframes, hresult⟩ := hcall
  obtain ⟨rfl, rfl⟩ := Prod.mk.inj hresult
  exact ⟨frame, middle, hframes, rfl, rfl⟩

/-- `kmalloc` makes a block, of frames of the table if they are granted. -/
theorem Backed.kmalloc (h : Backed mapping allocator obtained origins)
    (hcall : run exec (kmalloc mapping.hhdmOffset 5000) allocator = some (addr, after)) :
    ∃ frame, addr = blockPointer mapping.hhdmOffset frame ∧ addr ≠ 0 ∧
      Backed mapping after obtained (origins ++ [frame]) ∧
      (Heap.Granted 5000 allocator → frame ≠ 0) := by
  obtain ⟨frame, middle, hframes, rfl, rfl⟩ := kmalloc_block hcall
  have hlocked := h.withLock 1
  obtain ⟨hbacked, hword⟩ := hlocked.allocateFrames one_le_two hframes
  have hheld := hbacked.hold hword
  refine ⟨frame, rfl, ?_, hheld.withLock 0, ?_⟩
  · apply blockPointer_ne_zero mapping.offset_aligned
    by_cases hframe : frame = 0
    · rw [hframe]
    · exact (hheld.block_mapped (List.mem_append_right _ (List.mem_singleton_self _)) hframe).1
  · intro hgranted
    rw [Heap.Granted, if_pos (by norm_num), frameCounts_malloc] at hgranted
    obtain ⟨frame', middle', hspec, hallocated⟩ :=
      Frames.memoryAllocateFrames_spec mapping.hhdmOffset hlocked.consistent.sound one_le_two
    obtain ⟨rfl, rfl⟩ := Prod.mk.inj (Option.some.inj (hspec.symm.trans hframes))
    exact hallocated.ne_zero_iff.mpr hgranted

/-- `memory_free_frames` writes no bytes. -/
theorem memoryFreeFrames_bytes (hsound : Frames.Sound allocator.context.freelist)
    (haligned : frame % 4096 = 0)
    (hrun : run exec (memoryFreeFrames frame count) allocator = some (ok, after)) :
    ok = true ∧ after.bytes = allocator.bytes := by
  have hle := hsound.cursor_le
  by_cases hfull : allocator.context.freelist.cursor = 255
  · rw [Frames.run_memoryFreeFrames_full hfull haligned] at hrun
    obtain ⟨rfl, rfl⟩ := Prod.mk.inj (Option.some.inj hrun)
    exact ⟨rfl, rfl⟩
  · rw [Frames.run_memoryFreeFrames (by omega)] at hrun
    obtain ⟨rfl, rfl⟩ := Prod.mk.inj (Option.some.inj hrun)
    exact ⟨rfl, rfl⟩

/-- `memory_free_frame` writes no bytes, and fails with a full table and no adjacent entry. -/
theorem memoryFreeFrame_bytes (hsound : Frames.Sound allocator.context.freelist)
    (hrun : run exec (memoryFreeFrame frame) allocator = some (ok, after)) :
    after.bytes = allocator.bytes ∧ (ok = false → after = allocator) ∧
      (ok = false ↔ allocator.context.freelist.cursor = 255 ∧
        Frames.freeSlot allocator.context.freelist frame = none) := by
  rw [Frames.run_memoryFreeFrame hsound] at hrun
  cases hslot : Frames.freeSlot allocator.context.freelist frame with
  | some index =>
    rw [hslot] at hrun
    obtain ⟨rfl, rfl⟩ := Prod.mk.inj (Option.some.inj hrun)
    exact ⟨rfl, by simp, by simp⟩
  | none =>
    rw [hslot, Option.elim_none] at hrun
    by_cases hfull : allocator.context.freelist.cursor = 255
    · rw [if_pos hfull] at hrun
      obtain ⟨rfl, rfl⟩ := Prod.mk.inj (Option.some.inj hrun)
      exact ⟨rfl, fun _ ↦ rfl, by simp [hfull]⟩
    · rw [if_neg hfull] at hrun
      obtain ⟨rfl, rfl⟩ := Prod.mk.inj (Option.some.inj hrun)
      exact ⟨rfl, by simp, by simp [hfull]⟩

/-- `memory_free_frames` of obtained frames. -/
theorem Backed.freeFrames (h : Backed mapping allocator obtained origins) (hcount : 0 < count)
    (hle : strided 4096 frame count ≤ obtained)
    (hrun : run exec (memoryFreeFrames frame count) allocator = some (ok, after)) :
    Backed mapping after (obtained - strided 4096 frame count) origins := by
  have howned : strided 4096 frame count ≤ obtained + blockFrames origins :=
    hle.trans (Multiset.le_add_right _ _)
  obtain ⟨haligned, -, hend⟩ := mapped_run h.held_le hcount howned
  obtain ⟨rfl, hbytes⟩ := memoryFreeFrames_bytes h.consistent.sound haligned hrun
  have hword : frame < 2 ^ 64 := by omega
  have hstep : Frames.FrameStep mapping.hhdmOffset ⟨allocator, obtained + blockFrames origins⟩
      (.freeFrames frame count true)
      ⟨after, obtained + blockFrames origins - strided 4096 frame count⟩ :=
    Frames.FrameStep.freeFrames haligned hword howned hrun
  exact h.freed hle hstep hbytes

/-- `memory_free_frame` of an obtained frame. -/
theorem Backed.freeFrame (h : Backed mapping allocator obtained origins)
    (hle : releasedFrames frame 1 ok ≤ obtained)
    (hrun : run exec (memoryFreeFrame frame) allocator = some (ok, after)) :
    Backed mapping after (obtained - releasedFrames frame 1 ok) origins := by
  obtain ⟨hbytes, hrefused, -⟩ := memoryFreeFrame_bytes h.consistent.sound hrun
  cases ok with
  | false =>
    rw [hrefused rfl, releasedFrames, if_neg Bool.false_ne_true, tsub_zero]
    exact h
  | true =>
    rw [releasedFrames, if_pos rfl, strided_one] at hle ⊢
    have howned : frame ∈ obtained + blockFrames origins :=
      Multiset.mem_add.mpr (Or.inl (Multiset.singleton_le.mp hle))
    have hstep : Frames.FrameStep mapping.hhdmOffset ⟨allocator, obtained + blockFrames origins⟩
        (.freeFrame frame true) ⟨after, obtained + blockFrames origins - {frame}⟩ :=
      Frames.FrameStep.freeFrame howned hrun
    exact h.freed hle hstep hbytes

/-- `kfree` of the last block frees its two frames. -/
theorem Backed.run_kfree (h : Backed mapping allocator obtained (origins ++ [frame]))
    (hframe : frame ≠ 0) (hlock : allocator.memoryLock = 0) :
    run exec (kfree mapping.hhdmOffset (blockPointer mapping.hhdmOffset frame)) allocator =
      (run exec (memoryFreeFrames frame 2) { allocator with memoryLock := 1 }).map
        fun result ↦ (result.1, { result.2 with memoryLock := 0 }) := by
  have hlast : frame ∈ origins ++ [frame] := List.mem_append_right _ (List.mem_singleton_self _)
  obtain ⟨haligned, hend⟩ := h.block_mapped hlast hframe
  have hoffset := mapping.offset_aligned
  have hpointer := blockPointer_of_le hend
  have hbase : sub (frame + mapping.hhdmOffset + 40) 8 = frame + mapping.hhdmOffset + 32 :=
    sub_of_le (by omega) (by omega)
  have hvirtual : pointerFrame (frame + mapping.hhdmOffset + 40) = frame + mapping.hhdmOffset :=
    Heap.pointerFrame_of_lt (by omega) (by omega) (by omega)
  have hphysical : sub (frame + mapping.hhdmOffset) mapping.hhdmOffset = frame := by
    rw [sub_of_le (by omega) (by omega)]
    omega
  have hword := h.words frame hlast hframe
  rw [hpointer, Heap.run_kfree_large hlock (by rw [hbase, hword]; norm_num), hbase, hword,
    hvirtual, hphysical, frameCounts_block]
  rfl

/-- `kfree` of the last block gives its frames back. -/
theorem Backed.kfree (h : Backed mapping allocator obtained (origins ++ [frame]))
    (hframe : frame ≠ 0)
    (hcall : run exec (kfree mapping.hhdmOffset (blockPointer mapping.hhdmOffset frame))
      allocator = some (ok, after)) :
    Backed mapping after obtained origins := by
  rw [h.run_kfree hframe (lock_of_run hcall), Option.map_eq_some_iff] at hcall
  obtain ⟨⟨ok', middle⟩, hframes, hresult⟩ := hcall
  obtain ⟨-, rfl⟩ := Prod.mk.inj hresult
  have hfreed := ((h.unhold hframe).withLock 1).freeFrames two_pos
    (Multiset.le_add_left _ _) hframes
  rw [add_tsub_cancel_right] at hfreed
  exact hfreed.withLock 0

end Block

/-! ## The accounts of a history -/

/-- The frames are accounted for, and `PointerStore` lists the blocks in the frames `origins`. -/
structure ListsBlocks (mapping : Heap.Mapping) (config : ShellConfig) (origins : List ℕ) :
    Prop where
  backed : Backed mapping config.state.allocator config.obtained origins
  listed_eq : listed config.state.pointerStore = origins.map (blockPointer mapping.hhdmOffset)
  cursor_le : config.state.pointerStore.cursor ≤ 255

section ListsBlocks

variable {mapping : Heap.Mapping} {config next : ShellConfig} {origins blocks : List ℕ}
  {after : ShellState} {addr : ℕ} {ok : Bool}

theorem ShellBooted.listsBlocks {hhdmOffset : ℕ} (h : ShellBooted hhdmOffset config) :
    ListsBlocks h.mapping config [] := by
  have howned : config.obtained + blockFrames [] = 0 := by
    rw [h.obtained_eq]
    rfl
  refine ⟨⟨?_, ?_, by simp⟩, ?_, ?_⟩
  · rw [howned]
    exact Frames.consistent_start h.sound rfl
  · rw [howned, Frames.FrameConfig.total, add_zero]
    exact le_rfl
  · rw [listed, h.cursor_eq]
    rfl
  · rw [h.cursor_eq]
    exact Nat.zero_le _

/-- A line that leaves `PointerStore` alone and accounts for its frames. -/
theorem ListsBlocks.moved (h : ListsBlocks mapping config origins)
    (hbacked : Backed mapping next.state.allocator next.obtained origins)
    (hstore : next.state.pointerStore = config.state.pointerStore) :
    ListsBlocks mapping next origins := by
  refine ⟨hbacked, ?_, ?_⟩
  · rw [hstore]
    exact h.listed_eq
  · rw [hstore]
    exact h.cursor_le

/-- `malloc` pushes its block, unless `PointerStore` is full. -/
theorem ListsBlocks.malloc (h : ListsBlocks mapping config origins)
    (hrun : run execShell (kshell mapping.hhdmOffset (textBytes "malloc")) config.state =
      some ((), after))
    (hcall : run exec (kmalloc mapping.hhdmOffset 5000) config.state.allocator =
      some (addr, after.allocator)) :
    ∃ frame, addr = blockPointer mapping.hhdmOffset frame ∧ addr ≠ 0 ∧
      (Heap.Granted 5000 config.state.allocator → frame ≠ 0) ∧
      after.frame = config.state.frame ∧
      ∀ blocks, ListsBlocks mapping { config with state := after, blocks := blocks }
        (if config.state.pointerStore.cursor = 255 then origins else origins ++ [frame]) := by
  obtain ⟨addr', hcall', hframe, hstore⟩ := malloc_effect hrun
  obtain ⟨rfl, -⟩ := Prod.mk.inj (Option.some.inj (hcall'.symm.trans hcall))
  obtain ⟨frame, rfl, hne, hbacked, hgranted⟩ := h.backed.kmalloc hcall
  rw [stored, if_neg hne] at hstore
  refine ⟨frame, rfl, hne, hgranted, hframe, fun blocks ↦ ?_⟩
  by_cases hfull : config.state.pointerStore.cursor = 255
  · rw [if_pos hfull]
    rw [pushed_full hfull] at hstore
    exact h.moved hbacked.drop hstore
  · rw [if_neg hfull]
    have hroom : config.state.pointerStore.cursor < 255 := lt_of_le_of_ne h.cursor_le hfull
    obtain ⟨hnext, hlisted⟩ := @listed_pushed _ (blockPointer mapping.hhdmOffset frame) hroom
    rw [← hstore] at hnext hlisted
    refine ⟨hbacked, ?_, ?_⟩
    · rw [hlisted, h.listed_eq, List.map_append, List.map_singleton]
    · rw [hnext]
      exact hroom

/-- `frame` and `frames`. -/
theorem ListsBlocks.frame (h : ListsBlocks mapping config origins)
    (hrun : run execShell (kshell mapping.hhdmOffset (textBytes "frame")) config.state =
      some ((), after)) : ListsBlocks mapping (config.obtain after 1) origins := by
  rw [kshell_frame] at hrun
  obtain ⟨hcall, hstore⟩ := frameCommand_effect hrun
  exact h.moved (h.backed.allocateFrame hcall) hstore

theorem ListsBlocks.frames (h : ListsBlocks mapping config origins)
    (hrun : run execShell (kshell mapping.hhdmOffset (textBytes "frames")) config.state =
      some ((), after)) : ListsBlocks mapping (config.obtain after 5) origins := by
  rw [kshell_frames] at hrun
  obtain ⟨hcall, hstore⟩ := frameCommand_effect hrun
  exact h.moved (h.backed.allocateFrames (by norm_num) hcall).1 hstore

/-- `freeframe` of an obtained frame. -/
theorem ListsBlocks.freeframe (h : ListsBlocks mapping config origins)
    (hle : releasedFrames config.state.frame 1 ok ≤ config.obtained)
    (hrun : run execShell (kshell mapping.hhdmOffset (textBytes "freeframe")) config.state =
      some ((), after))
    (hcall : run exec (memoryFreeFrame config.state.frame) config.state.allocator =
      some (ok, after.allocator)) : ListsBlocks mapping (config.release after 1 ok) origins := by
  rw [kshell_freeframe] at hrun
  obtain ⟨-, -, -, hstore⟩ := freeframeCommand_effect hrun
  exact h.moved (h.backed.freeFrame hle hcall) hstore

/-- `freeframes` of obtained frames. -/
theorem ListsBlocks.freeframes (h : ListsBlocks mapping config origins)
    (hle : strided 4096 config.state.frame 5 ≤ config.obtained)
    (hrun : run execShell (kshell mapping.hhdmOffset (textBytes "freeframes")) config.state =
      some ((), after))
    (hcall : run exec (memoryFreeFrames config.state.frame 5) config.state.allocator =
      some (true, after.allocator)) :
    ListsBlocks mapping (config.release after 5 true) origins := by
  rw [kshell_freeframes] at hrun
  obtain ⟨-, -, -, hstore⟩ := freeframeCommand_effect hrun
  exact h.moved (h.backed.freeFrames (by norm_num) hle hcall) hstore

/-- `free` has nothing to free. -/
theorem ListsBlocks.free_nothing (h : ListsBlocks mapping config origins)
    (hempty : config.state.pointerStore.cursor = 0)
    (hrun : run execShell (kshell mapping.hhdmOffset (textBytes "free")) config.state =
      some ((), after)) :
    ListsBlocks mapping { config with state := after, blocks := blocks } origins := by
  obtain ⟨htop, hpopped⟩ := popped_empty hempty
  obtain ⟨-, hstore, hallocator, -⟩ := free_effect hrun
  refine h.moved ?_ (hstore.trans hpopped)
  change Backed mapping after.allocator config.obtained origins
  rw [hallocator htop]
  exact h.backed

/-- The pointer on top is that of the last block. -/
theorem ListsBlocks.exists_top (h : ListsBlocks mapping config origins)
    (hne : config.state.pointerStore.cursor ≠ 0) :
    ∃ front frame, origins = front ++ [frame] ∧
      top config.state.pointerStore = blockPointer mapping.hhdmOffset frame ∧
      listed (popped config.state.pointerStore) = front.map (blockPointer mapping.hhdmOffset) := by
  obtain ⟨-, hlisted⟩ := listed_popped h.cursor_le hne
  rcases origins.eq_nil_or_concat with rfl | ⟨front, frame, rfl⟩
  · have hnil := hlisted.symm.trans h.listed_eq
    simp at hnil
  · have hsplit := hlisted.symm.trans h.listed_eq
    rw [List.concat_eq_append, List.map_append, List.map_singleton] at hsplit
    obtain ⟨hfront, htop⟩ := List.append_inj' hsplit rfl
    exact ⟨front, frame, List.concat_eq_append, List.singleton_inj.mp htop, hfront⟩

/-- `free` of a block with frames. -/
theorem ListsBlocks.free {front : List ℕ} {frame : ℕ}
    (h : ListsBlocks mapping config (front ++ [frame])) (hframe : frame ≠ 0)
    (hrun : run execShell (kshell mapping.hhdmOffset (textBytes "free")) config.state =
      some ((), after)) :
    top config.state.pointerStore ≠ 0 ∧
      ListsBlocks mapping { config with state := after, blocks := blocks } front := by
  have hne : config.state.pointerStore.cursor ≠ 0 := by
    rw [← length_listed, h.listed_eq]
    simp
  obtain ⟨front', frame', horigins, htop, hlisted⟩ := h.exists_top hne
  obtain ⟨rfl, hlast⟩ := List.append_inj' horigins rfl
  obtain rfl := List.singleton_inj.mp hlast
  have haligned := (h.backed.block_mapped (List.mem_append_right _
    (List.mem_singleton_self _)) hframe).1
  have htopne : top config.state.pointerStore ≠ 0 := by
    rw [htop]
    exact blockPointer_ne_zero mapping.offset_aligned haligned
  obtain ⟨-, hstore, -, hcalled⟩ := free_effect hrun
  obtain ⟨ok, hcall⟩ := hcalled htopne
  rw [htop] at hcall
  refine ⟨htopne, h.backed.kfree hframe hcall, ?_, ?_⟩
  · rw [hstore]
    exact hlisted
  · rw [hstore, (listed_popped h.cursor_le hne).1]
    exact (Nat.sub_le _ _).trans h.cursor_le

/-- The other lines. -/
theorem ListsBlocks.other {line : List UInt8} (h : ListsBlocks mapping config origins)
    (hline : ∀ name ∈ ["malloc", "frame", "frames", "free", "freeframe", "freeframes"],
      line ≠ textBytes name)
    (hrun : run execShell (kshell mapping.hhdmOffset line) config.state = some ((), after)) :
    after.frame = config.state.frame ∧
      ListsBlocks mapping { config with state := after } origins := by
  have hkept := (readsOnly_kshell hline).kept hrun
  refine ⟨hkept.frame, h.moved ?_ hkept.pointerStore⟩
  change Backed mapping after.allocator config.obtained origins
  rw [hkept.allocator]
  exact h.backed

end ListsBlocks

end SideHOS.Shell
