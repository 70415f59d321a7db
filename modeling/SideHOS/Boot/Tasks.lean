import SideHOS.Boot.Capacity
import SideHOS.Boot.Release
import SideHOS.Frames.Retention
import SideHOS.Tasks.Startup

/-!
# From the memory map to the tasks

`kmain` turns the memory map into a table of frames, and its loop makes records and stacks from
them.  With enough frames the loop ends in the state in which the models of the processors start:
the queue in memory is the queue of their model, and every task can be dispatched.  Processors that
come to `ap_entry` one after another are then where dispatching starts.
-/

namespace SideHOS.Boot

open Heap Kernel Kernel.Context Linked Machine Machine.ByteMemory Sharing Sharing.Program Tasks
  Tasks.Creation Tasks.Dispatched Tasks.Switch

/-- What the loop of `kmain` leaves after so many turns: the tasks in order in the queue, each
ready for its first dispatch, their blocks apart from each other and the only ones in use, and the
locks free.  It is also what the model of the processors starts with. -/
structure TasksReady (mapping : Mapping) (text : Text KmainEntry) (turns : ℕ) (state : KernelState)
    (created : List (TaskRecord KmainEntry)) : Prop where
  entries : created.map TaskRecord.entry = kmainEntries turns
  queue : Chain 0 (nextTask state.allocator.bytes) state.tasks (created.map TaskRecord.address)
  ready : ∀ task ∈ created, Ready text state.allocator.bytes task
  lends : Lends mapping state.allocator (blocksOf created)
  apart : (blocksOf created).Pairwise Extent.Apart
  unlocked : state.taskLock = 0
  launched : ∀ task ∈ created, ∀ core, core.memory = state.allocator.bytes →
    core.trapFlag = false → core.reg .rdi = load64 core.memory (task.address + field .rsp) →
      RunEnters text task.address task.stack task.entry core
  restored : ∀ task ∈ created, ∀ core below, core.memory = state.allocator.bytes →
    core.trapFlag = false → core.reg .rdi = task.address → core.reg .rsp = below + 8 →
    below + 16 < 2 ^ 64 → Extent.Apart (contextExtent task.address) ⟨below, 16⟩ →
    Extent.Apart (preparedWords task.stack) ⟨below, 16⟩ →
      RestoreEnters text task.address task.stack task.entry below core
  machine : ∀ {Proc : Type} [DecidableEq Proc] (work : Workload Proc) (_ : Proc),
    work.ordinary = created.map TaskRecord.address →
      ∃ machine, Kernel.Booted work machine ∧ machine.queue.shared.tasks = state.tasks ∧
        ∀ task ∈ created, machine.queue.shared.next task.address =
          nextTask state.allocator.bytes task.address

section Ready

variable {mapping : Mapping} {text : Text KmainEntry} {state : KernelState}
  {created : List (TaskRecord KmainEntry)} {hhdmOffset turns : ℕ}

/-- The model of the processors starts with a queue of these tasks, as memory has it. -/
theorem exists_machine (hchain : Chain 0 (nextTask state.allocator.bytes) state.tasks
      (created.map TaskRecord.address)) {Proc : Type} [DecidableEq Proc] (work : Workload Proc)
    (proc : Proc) (hwork : work.ordinary = created.map TaskRecord.address) :
    ∃ machine, Kernel.Booted work machine ∧ machine.queue.shared.tasks = state.tasks ∧
      ∀ task ∈ created, machine.queue.shared.next task.address =
        nextTask state.allocator.bytes task.address := by
  obtain ⟨machine, hbooted, hqueued⟩ := exists_booted work proc
  have hshared := hqueued.chain
  rw [hwork] at hshared
  have hhead : machine.queue.shared.tasks = state.tasks := by
    cases hcreated : created.map TaskRecord.address with
    | nil =>
      rw [hcreated] at hshared hchain
      exact Eq.trans hshared hchain.symm
    | cons first rest =>
      rw [hcreated] at hshared hchain
      exact hshared.1.trans hchain.1.symm
  rw [hhead] at hshared
  refine ⟨machine, hbooted, hhead, fun task htask ↦ ?_⟩
  exact hchain.next_eq hshared task.address (List.mem_map_of_mem htask)

/-- The heap as it is at boot has given out nothing. -/
theorem populated_boot (hboot : Heap.Booted hhdmOffset ⟨state.allocator, [], 0⟩)
    (htasks : state.tasks = 0) (hlock : state.taskLock = 0) :
    Populated hboot.mapping text state [] [] where
  lends := ⟨[], _, hboot.serves maximumSize, nofun, rfl⟩
  blocks := by simp
  ready := by simp
  chain := htasks
  lock := hlock

theorem Populated.tasksReady (h : Populated mapping text state (blocksOf created) created)
    (hentries : created.map TaskRecord.entry = kmainEntries turns) :
    TasksReady mapping text turns state created := by
  have hblock (task : TaskRecord KmainEntry) (htask : task ∈ created) :
      StackBlock task.address task.stack :=
    stackBlock_of_lends h.lends (h.blocks task htask).1 (h.blocks task htask).2
  have hprepared (task : TaskRecord KmainEntry) (htask : task ∈ created) :
      Prepared text task.address task.stack task.entry state.allocator.bytes := by
    have hfresh := (h.ready task htask).fresh
    exact ⟨hfresh.rsp, hfresh.trampoline, hfresh.entryWord, hfresh.taskWord, hfresh.exitWord⟩
  exact {
    entries := hentries
    queue := h.chain
    ready := h.ready
    lends := h.lends
    apart := h.lends.pairwise
    unlocked := h.lock
    launched := fun task htask core hmemory hflag hrdi ↦
      (runEnters_iff (hblock task htask) (hmemory ▸ hprepared task htask) hrdi).mpr hflag
    restored := fun task htask core below hmemory hflag hrdi hrsp hbelow hcontext hwords ↦
      (restoreEnters_iff (hblock task htask) (hmemory ▸ hprepared task htask) hrdi hrsp hbelow
        hcontext hwords).mpr ⟨hflag, hmemory ▸ (h.ready task htask).contextTrapFlag_eq⟩
    machine := exists_machine h.chain }

/-- With frames for them the loop of `kmain` ends, and all its tasks are ready. -/
theorem tasks_created (hboot : Heap.Booted hhdmOffset ⟨state.allocator, [], 0⟩)
    (htasks : state.tasks = 0) (hlock : state.taskLock = 0)
    (hframes : HasFrames (6 * turns) state.allocator) :
    ∃ created after, run execKernel (kmainCreate hhdmOffset text turns) state = some ((), after) ∧
      TasksReady hboot.mapping text turns after created := by
  have hstart : Populated hboot.mapping text state [] [] := populated_boot hboot htasks hlock
  have hroom : HasFrames (6 * turns + 0) state.allocator := hframes
  obtain ⟨created, after, hrun, hentries, hafter, -⟩ := hstart.kmainCreate hroom
  rw [List.append_nil, List.nil_append] at hafter
  exact ⟨created, after, hrun, Populated.tasksReady hafter hentries⟩

/-! ## Processors -/

/-- A processor that has come to `task_run`, with `gs` at its `CPULocal`, is where dispatching
starts, and every task of `kmain` is one that it may dispatch. -/
def Dispatches (text : Text KmainEntry) (memory : Memory) (created : List (TaskRecord KmainEntry))
    (processor : ProcessorRecord KmainEntry) : Prop :=
  ∀ (core : X86.Core) (t : ℕ), core.memory = memory → core.rip = text.address .taskRun →
    core.reg .rdi = processor.answer.2 →
    (∀ offset, core.gs offset = load64 core.memory (processor.answer.1 + offset)) →
      Dispatched.Starting text processor.idle.address processor.idle.stack ⟨core, t⟩ ∧
        IdlePlaced processor.idle.address processor.idle.stack ∧
        ∀ task ∈ created, ∃ function, task.entry = .entry function ∧
          Elsewhere processor.idle.address processor.idle.stack task.address task.stack ∧
          Fresh text core.memory task.address task.stack (.entry function)

theorem entry_of_kmainEntries (hentries : created.map TaskRecord.entry = kmainEntries turns)
    {task : TaskRecord KmainEntry} (htask : task ∈ created) :
    ∃ function, task.entry = .entry function := by
  have hmem : task.entry ∈ kmainEntries turns := by
    rw [← hentries]
    exact List.mem_map_of_mem htask
  obtain ⟨pair, hpair, hentry⟩ := List.mem_flatten.mp hmem
  rw [List.eq_of_mem_replicate hpair] at hentry
  rcases List.mem_cons.mp hentry with hfirst | hsecond
  · exact ⟨_, hfirst⟩
  · exact ⟨_, List.mem_singleton.mp hsecond⟩

theorem mem_blocksOf {task : TaskRecord KmainEntry} (htask : task ∈ created) :
    task.record ∈ blocksOf created ∧ task.stackExtent ∈ blocksOf created := by
  constructor
  · exact List.mem_flatMap.mpr ⟨task, List.mem_reverse.mpr htask, by simp⟩
  · exact List.mem_flatMap.mpr ⟨task, List.mem_reverse.mpr htask, by simp⟩

/-- What the loop of `kmain` and then `ap_entry` on so many processors leave: the idle tasks are in
the queue behind the tasks of `kmain`, nothing but the blocks of both is in use, and each processor
is where the dispatch of the tasks starts. -/
structure ProcessorsStarted (mapping : Mapping) (text : Text KmainEntry) (turns : ℕ)
    (state : KernelState) (created : List (TaskRecord KmainEntry))
    (started : List (ProcessorRecord KmainEntry)) : Prop where
  entries : created.map TaskRecord.entry = kmainEntries turns
  idle_entries : ∀ processor ∈ started, processor.idle.entry = .idleTaskEntry
  queue : Chain 0 (nextTask state.allocator.bytes) state.tasks
    ((created ++ started.map ProcessorRecord.idle).map TaskRecord.address)
  lends : Lends mapping state.allocator
    (started.reverse.flatMap ProcessorRecord.extents ++ blocksOf created)
  unlocked : state.taskLock = 0
  dispatches : ∀ processor ∈ started, Dispatches text state.allocator.bytes created processor

/-- The idle task of a processor is apart from the tasks of `kmain`. -/
theorem elsewhere_of_started {started : List (ProcessorRecord KmainEntry)}
    {extents : List Extent} {tasks : List (TaskRecord KmainEntry)} (hend : mapping.EndsBefore)
    (h : Recorded mapping text state.allocator extents tasks)
    (hextents : extents = started.reverse.flatMap ProcessorRecord.extents ++ blocksOf created)
    {processor : ProcessorRecord KmainEntry} (hprocessor : processor ∈ started)
    (hidle : processor.idle ∈ tasks) {task : TaskRecord KmainEntry} (htask : task ∈ created)
    (hmem : task ∈ tasks) :
    Elsewhere processor.idle.address processor.idle.stack task.address task.stack := by
  have hpairwise := h.lends.pairwise
  rw [hextents, List.pairwise_append] at hpairwise
  have hrecord : processor.idle.record ∈ started.reverse.flatMap ProcessorRecord.extents :=
    List.mem_flatMap.mpr ⟨processor, List.mem_reverse.mpr hprocessor,
      by simp [ProcessorRecord.extents]⟩
  have hstack : processor.idle.stackExtent ∈ started.reverse.flatMap ProcessorRecord.extents :=
    List.mem_flatMap.mpr ⟨processor, List.mem_reverse.mpr hprocessor,
      by simp [ProcessorRecord.extents]⟩
  have hrecords := hpairwise.2.2 _ hrecord _ (mem_blocksOf htask).1
  have hstacks := hpairwise.2.2 _ hstack _ (mem_blocksOf htask).2
  simp only [Extent.Apart, Extent.stop, taskSize] at hrecords hstacks
  exact h.elsewhere hend hidle hmem (by omega) (by omega)

/-- After the loop of `kmain`, any number of processors come to `task_run` in `ap_entry`, one after
another. -/
theorem processors_started (hboot : Heap.Booted hhdmOffset ⟨state.allocator, [], 0⟩)
    (htasks : state.tasks = 0) (hlock : state.taskLock = 0)
    (hend : ∀ frame ∈ Frames.free state.allocator.context.freelist,
      frame + hhdmOffset + 4096 < 2 ^ 64)
    {infos : List ℕ} (hinfos : ∀ info ∈ infos, info ≠ 0 ∧ info + 32 ≤ 2 ^ 64)
    (hframes : HasFrames (6 * turns + 4 * infos.length) state.allocator) :
    ∃ (created : List (TaskRecord KmainEntry)) (started : List (ProcessorRecord KmainEntry))
      (after : KernelState),
      run execKernel (kmainCreate hhdmOffset text turns >>= fun _ ↦
          apEntries hhdmOffset text infos) state =
        some (started.map ProcessorRecord.answer, after) ∧ started.length = infos.length ∧
      ProcessorsStarted hboot.mapping text turns after created started := by
  have hbefore : hboot.mapping.EndsBefore := hend
  have hstart : Populated hboot.mapping text state [] [] := populated_boot hboot htasks hlock
  obtain ⟨created, middle, hrun, hentries, hmiddle, hleft⟩ := hstart.kmainCreate hframes
  rw [List.append_nil, List.nil_append] at hmiddle
  have hroom : HasFrames (4 * infos.length + 0) middle.allocator := hleft
  obtain ⟨started, after, hrun', hlength, hafter, hstarted, -, -⟩ := hmiddle.apEntries hinfos hroom
  have hdispatches (processor : ProcessorRecord KmainEntry) (hprocessor : processor ∈ started) :
      Dispatches text after.allocator.bytes created processor := by
    intro core t hmemory hrip hrdi hgs
    have hready := hstarted processor hprocessor
    have hidle := hafter.ready processor.idle hready.mem
    have hrsp : core.reg .rdi = load64 core.memory (processor.idle.address + field .rsp) := by
      rw [hmemory, hidle.fresh.rsp]
      exact hrdi
    refine ⟨Ready.starting (hmemory ▸ hidle) hready.entry (hmemory ▸ hready.local_ready) hrip hrsp
      hgs, hafter.idlePlaced hbefore hready.mem, fun task htask ↦ ?_⟩
    have hmem := List.mem_append_left (started.map ProcessorRecord.idle) htask
    obtain ⟨function, hfunction⟩ := entry_of_kmainEntries hentries htask
    refine ⟨function, hfunction, elsewhere_of_started hbefore hafter.toRecorded rfl hprocessor
      hready.mem htask hmem, ?_⟩
    rw [hmemory, ← hfunction]
    exact (hafter.ready task hmem).fresh
  refine ⟨created, started, after, ?_, hlength, {
    entries := hentries
    idle_entries := fun processor hprocessor ↦ (hstarted processor hprocessor).entry
    queue := hafter.chain
    lends := hafter.lends
    unlocked := hafter.lock
    dispatches := hdispatches }⟩
  exact (run_bind_of_eq hrun).trans hrun'

end Ready

/-! ## The memory map -/

section MemoryMap

variable {entries : List MemmapEntry} {allocator : AllocatorState} {hhdmOffset : ℕ}

/-- The memory map and the direct map as `kmain` relies on them: usable entries round to their whole
frames, frame 0 is not among these, and the direct map is aligned and in the address space. -/
structure Bootable (entries : List MemmapEntry) (hhdmOffset : ℕ) : Prop extends
    MemoryMap entries where
  exactly : ∀ entry ∈ entries, Usable entry → RoundsExactly entry
  zero_unused : ∀ entry ∈ entries, Usable entry → ¬ WholeFrame entry 0
  offset_aligned : hhdmOffset % 4096 = 0
  end_le : ∀ entry ∈ entries, Usable entry → entry.base + entry.length + hhdmOffset ≤ 2 ^ 64

theorem Bootable.cursor_eq (h : Bootable entries hhdmOffset) :
    (kmainIntake entries).freelist.cursor = (entries.filterMap segmentOf).length := by
  rw [← length_tableSegments, h.tableSegments_eq]

theorem Bootable.cursor_le (h : Bootable entries hhdmOffset) :
    (kmainIntake entries).freelist.cursor ≤ 127 := by
  rw [h.cursor_eq]
  exact length_filterMap_le.trans h.count

/-- The table is as the allocator needs it. -/
theorem Bootable.sound (h : Bootable entries hhdmOffset) :
    Frames.Sound (kmainIntake entries).freelist := by
  have hexact := h.toMemoryMap.exact h.exactly
  have hwhole {index k : ℕ} (hindex : index < (kmainIntake entries).freelist.cursor)
      (hk : k < ((kmainIntake entries).freelist.segments index).length) :
      ((kmainIntake entries).freelist.segments index).base + 4096 * k + 4096 ≤ 2 ^ 64 := by
    have hmem := Frames.mem_frames.mpr ⟨index, hindex, Frames.mem_segmentFrames.mpr ⟨k, hk, rfl⟩⟩
    obtain ⟨entry, hentry, husable, -, -, hstop⟩ := (hexact.frames _).mp hmem
    have hbound := h.bound entry hentry husable
    simp only [extent, Extent.stop] at hstop
    omega
  have hlength {index : ℕ} (hindex : index < (kmainIntake entries).freelist.cursor) :=
    (hexact.segments index hindex).2
  exact {
    cursor_le := h.cursor_le.trans (by norm_num)
    aligned := fun index hindex _ ↦ (hexact.segments index hindex).1
    base_lt := fun index hindex ↦ by
      have := hwhole hindex (hlength hindex)
      omega
    end_le := fun index hindex ↦ by
      have hpos := hlength hindex
      have := hwhole hindex (Nat.sub_lt hpos one_pos)
      omega
    disjoint := Frames.disjoint_of_nodup hexact.once
    zero_not_mem := fun hzero ↦ by
      obtain ⟨entry, hentry, husable, hframe⟩ := (hexact.frames 0).mp hzero
      exact h.zero_unused entry hentry husable hframe }

/-- After the first loop of `kmain` the heap is as at boot. -/
theorem Bootable.booted (h : Bootable entries hhdmOffset)
    (hintake : AfterIntake entries allocator) : Heap.Booted hhdmOffset ⟨allocator, [], 0⟩ where
  sound := by
    change Frames.Sound allocator.context.freelist
    rw [hintake.freelist]
    exact h.sound
  offset_aligned := h.offset_aligned
  end_le frame hframe := by
    change frame ∈ Frames.free allocator.context.freelist at hframe
    rw [hintake.freelist] at hframe
    obtain ⟨entry, hentry, husable, -, -, hstop⟩ := (h.frames_iff h.exactly).mp hframe
    have hend := h.end_le entry hentry husable
    simp only [extent, Extent.stop] at hstop
    omega
  heapPages_eq := hintake.heapPages
  lock_eq := hintake.lock
  live_eq := rfl
  owned_eq := rfl

/-- The allocation loops can find the frames of all segments. -/
theorem Bootable.hasFrames_iff (h : Bootable entries hhdmOffset)
    (hintake : AfterIntake entries allocator) (count : ℕ) :
    HasFrames count allocator ↔ (entries.filterMap segmentOf).length + count ≤
      ((entries.filterMap segmentOf).map Segment.length).sum := by
  have hcursor := h.cursor_le
  have hlimit : Frames.scanLimit (kmainIntake entries).freelist =
      (entries.filterMap segmentOf).length := by
    rw [Frames.scanLimit_of_lt (by omega), h.cursor_eq]
  have hcard : (Frames.free (kmainIntake entries).freelist).card =
      ((entries.filterMap segmentOf).map Segment.length).sum := by
    rw [free_eq_bind, h.tableSegments_eq, Multiset.card_bind, Multiset.map_coe, Multiset.sum_coe]
    congr 1
    apply List.map_congr_left
    intro segment _
    exact card_strided
  rw [HasFrames, available, hintake.freelist, hlimit, Frames.scanned_of_le hcursor, hcard]

/-- From a memory map with frames for them, `kmain` creates its tasks, all in memory that the map
says is usable. -/
theorem kmain_ready {state : KernelState} {text : Text KmainEntry} {turns : ℕ}
    (h : Bootable entries hhdmOffset) (hintake : AfterIntake entries state.allocator)
    (htasks : state.tasks = 0) (hlock : state.taskLock = 0)
    (hframes : (entries.filterMap segmentOf).length + 6 * turns ≤
      ((entries.filterMap segmentOf).map Segment.length).sum) :
    ∃ mapping created after,
      run execKernel (kmainCreate hhdmOffset text turns) state = some ((), after) ∧
      TasksReady mapping text turns after created ∧
      ∀ block ∈ blocksOf created, ∀ x, block.Holds x → hhdmOffset ≤ x ∧
        ∃ entry ∈ entries, Usable entry ∧ (extent entry).Holds (x - hhdmOffset) := by
  have hboot := h.booted hintake
  have hroom := (h.hasFrames_iff hintake (6 * turns)).mpr hframes
  obtain ⟨created, after, hrun, hready⟩ := tasks_created hboot htasks hlock hroom
  refine ⟨hboot.mapping, created, after, hrun, hready, fun block hblock x hx ↦ ?_⟩
  obtain ⟨frame, hframe, hlow, hhigh⟩ := hready.lends.exists_frame hblock hx
  change frame ∈ Frames.free state.allocator.context.freelist at hframe
  rw [hintake.freelist] at hframe
  change frame + hhdmOffset ≤ x at hlow
  change x < frame + hhdmOffset + 4096 at hhigh
  refine ⟨by omega, (h.toMemoryMap.exact h.exactly).bytes frame hframe _ ⟨by dsimp only; omega, ?_⟩⟩
  simp only [Extent.stop]
  omega

end MemoryMap

/-- Code addresses, one label after another. -/
def kmainAddress : Label KmainEntry → ℕ
  | .taskRun => 4096
  | .taskTrampoline => 4112
  | .idleTaskEntry => 4128
  | .idleLoop => 4144
  | .atSave => 4160
  | .afterSave => 4176
  | .atRestore => 4192
  | .afterRestore => 4208
  | .taskExit => 4224
  | .exitReturn => 4240
  | .entry .factorialTask => 4256
  | .entry .fibonacciTask => 4272

theorem kmainAddress_injective : Function.Injective kmainAddress := by
  rintro (_ | _ | _ | _ | _ | _ | _ | _ | _ | _ | (_ | _))
    (_ | _ | _ | _ | _ | _ | _ | _ | _ | _ | (_ | _)) h <;> first | rfl | cases h

theorem kmainAddress_lt (label : Label KmainEntry) : kmainAddress label < 2 ^ 64 := by
  rcases label with _ | _ | _ | _ | _ | _ | _ | _ | _ | _ | (_ | _) <;> norm_num [kmainAddress]

/-- A kernel with the two entry functions of `kmain`. -/
def kmainText : Text KmainEntry where
  address := kmainAddress
  injective := kmainAddress_injective
  word := kmainAddress_lt
  idleFrame := 48
  exitFrame := 48
  idleFrame_le := Nat.le_of_ble_eq_true rfl
  exitFrame_le := Nat.le_of_ble_eq_true rfl

/-- A memory map with sixteen usable pages. -/
def sixteenPages : List MemmapEntry := [⟨0x1000, 0x10000, 0⟩]

/-- The state after the first loop of `kmain`. -/
def sixteenState : KernelState where
  allocator :=
    { bytes := fun _ ↦ 0, context := ⟨(kmainIntake sixteenPages).freelist, 0⟩, memoryLock := 0 }
  tasks := 0
  taskLock := 0

theorem bootable_sixteenPages : Bootable sixteenPages 0 where
  toMemoryMap := memoryMap_singleton (by norm_num)
  exactly := by decide
  zero_unused entry hentry _ hzero := by
    rw [List.mem_singleton.mp hentry] at hzero
    exact absurd hzero.2.1 (by decide)
  offset_aligned := rfl
  end_le entry hentry _ := by
    rw [List.mem_singleton.mp hentry]
    norm_num

theorem afterIntake_sixteenPages : AfterIntake sixteenPages sixteenState.allocator :=
  ⟨rfl, rfl, rfl⟩

theorem segmentOf_sixteenPages : sixteenPages.filterMap segmentOf = [⟨0x1000, 16⟩] := by
  simp [sixteenPages, segmentOf, Usable, alignUp, Word64.add, Word64.sub]

/-- Two turns of the loop. -/
theorem kmain_ready_sixteenPages : ∃ mapping created after,
    run execKernel (kmainCreate 0 kmainText 2) sixteenState = some ((), after) ∧
      TasksReady mapping kmainText 2 after created := by
  have hframes : (sixteenPages.filterMap segmentOf).length + 6 * 2 ≤
      ((sixteenPages.filterMap segmentOf).map Segment.length).sum := by
    rw [segmentOf_sixteenPages]
    decide
  obtain ⟨mapping, created, after, hrun, hready, -⟩ :=
    kmain_ready bootable_sixteenPages afterIntake_sixteenPages rfl rfl hframes
  exact ⟨mapping, created, after, hrun, hready⟩

theorem hasFrames_sixteenPages (count : ℕ) (hcount : count ≤ 15) :
    HasFrames count sixteenState.allocator := by
  rw [bootable_sixteenPages.hasFrames_iff afterIntake_sixteenPages, segmentOf_sixteenPages]
  simp only [List.length_singleton, List.map_singleton, List.sum_singleton]
  omega

/-- One turn of the loop, and two processors. -/
theorem processors_started_sixteenPages : ∃ mapping created started after,
    run execKernel (kmainCreate 0 kmainText 1 >>= fun _ ↦ apEntries 0 kmainText [256, 288])
        sixteenState = some (started.map ProcessorRecord.answer, after) ∧
      started.length = 2 ∧ ProcessorsStarted mapping kmainText 1 after created started := by
  have hend : ∀ frame ∈ Frames.free sixteenState.allocator.context.freelist,
      frame + 0 + 4096 < 2 ^ 64 := by
    intro frame hframe
    obtain ⟨entry, hentry, -, -, -, hstop⟩ :=
      (bootable_sixteenPages.frames_iff bootable_sixteenPages.exactly).mp hframe
    rw [List.mem_singleton.mp hentry] at hstop
    simp only [extent, Extent.stop] at hstop
    omega
  obtain ⟨created, started, after, hrun, hlength, hstarted⟩ := processors_started
    (bootable_sixteenPages.booted afterIntake_sixteenPages) rfl rfl hend
    (show ∀ info ∈ [256, 288], info ≠ 0 ∧ info + 32 ≤ 2 ^ 64 by simp)
    (hasFrames_sixteenPages (6 * 1 + 4 * 2) (by norm_num))
  exact ⟨_, created, started, after, hrun, hlength, hstarted⟩

end SideHOS.Boot
