import SideHOS.Tasks.Creation

/-!
# The start of a processor

`ap_entry` takes blocks for its `CPULocal` and for the record and the stack of its idle task, puts
the idle task behind the tasks that are there, and comes to `task_run` with everything in place that
the dispatch of tasks relies on.
-/

namespace SideHOS.Tasks.Creation

open Dispatched Heap Kernel Kernel.Context Linked Machine Machine.ByteMemory Sharing
  Sharing.Program Switch

/-- A `CPULocal` with this idle task, which is also the current task. -/
structure LocalReady (memory : Memory) (cpuLocal idle : ℕ) : Prop where
  idleTask : load64 memory (cpuLocal + cpuIdleTask) = idle
  currentTask : load64 memory (cpuLocal + cpuCurrentTask) = idle

section Startup

variable {Entry : Type} {mapping : Mapping} {text : Text Entry} {state : KernelState}
  {extents : List Extent} {tasks : List (TaskRecord Entry)} {task idle : TaskRecord Entry}
  {memory : Memory} {cpuLocal info index size count : ℕ}

/-- A call of `kmalloc` keeps the tasks. -/
theorem Populated.kmalloc (h : Populated mapping text state extents tasks) (hpos : 1 ≤ size)
    (hsize : size ≤ maximumSize) (htwo : frameCounts size ≤ 2)
    (hframes : HasFrames (frameCounts size + count) state.allocator) :
    ∃ pointer final, run exec (kmalloc mapping.hhdmOffset size) state.allocator =
        some (pointer, final) ∧
      Populated mapping text { state with allocator := final } (⟨pointer, size⟩ :: extents) tasks ∧
      (∀ extent ∈ extents, ∀ x, extent.Holds x → final.bytes x = state.allocator.bytes x) ∧
      HasFrames count final := by
  obtain ⟨pointer, final, hrun, hlends, -, hkept, hleft⟩ :=
    h.lends.kmalloc hpos hsize htwo hframes
  have hpopulated :
      Populated mapping text { state with allocator := final } (⟨pointer, size⟩ :: extents) tasks :=
    { lends := hlends
      blocks := fun task htask ↦ (h.blocks task htask).imp (List.mem_cons_of_mem _)
        (List.mem_cons_of_mem _)
      ready := h.ready_of_kept fun extent hextent x hx _ ↦ hkept extent hextent x hx
      chain := h.chain_of_kept hkept h.chain
      lock := h.lock }
  exact ⟨pointer, final, hrun, hpopulated, hkept, hleft⟩

/-- Writes to a block that is no record and no stack keep the tasks. -/
theorem Populated.write (h : Populated mapping text state extents tasks)
    {block : Extent} (hblock : block ∈ extents)
    (hother : ∀ task ∈ tasks, block ≠ task.record ∧ block ≠ task.stackExtent)
    (hkept : ∀ x, ¬ block.Holds x → memory x = state.allocator.bytes x) :
    Populated mapping text { state with allocator.bytes := memory } extents tasks := by
  have hrecord (task : TaskRecord Entry) (htask : task ∈ tasks) (x : ℕ) (hx : task.record.Holds x) :
      memory x = state.allocator.bytes x :=
    hkept x ((h.lends.apart hblock (h.blocks task htask).1 (hother task htask).1).symm.not_holds hx)
  have hstack (task : TaskRecord Entry) (htask : task ∈ tasks) (x : ℕ)
      (hx : task.stackExtent.Holds x) : memory x = state.allocator.bytes x :=
    hkept x ((h.lends.apart hblock (h.blocks task htask).2 (hother task htask).2).symm.not_holds hx)
  have hwithin (task : TaskRecord Entry) : Extent.Within ⟨task.address, taskNext⟩ task.record :=
    ⟨le_rfl, Nat.add_le_add_left (show taskNext ≤ taskSize by decide) _⟩
  exact {
    lends := h.lends.write fun x hx ↦ hkept x (hx block hblock)
    blocks := h.blocks
    ready := fun task htask ↦ (h.ready task htask).congr
      (fun x hx ↦ hrecord task htask x ((hwithin task).holds hx)) (hstack task htask)
    chain := by
      apply h.chain.congr
      intro address haddress
      obtain ⟨task, htask, rfl⟩ := List.mem_map.mp haddress
      exact load64_of_agree (hrecord task htask) nextField_within
    lock := h.lock }

/-- The copy of `*info` ends, and copies word by word what it does not overwrite. -/
theorem run_copyInfo (state : KernelState) (index : ℕ) (hcpuLocal : cpuLocal ≠ 0) (hinfo : info ≠ 0)
    (hlocal : cpuLocal + cpuInfo + 8 * (index + count) ≤ 2 ^ 64)
    (hbound : info + 8 * (index + count) ≤ 2 ^ 64) :
    ∃ memory, run execKernel (copyInfo cpuLocal info index count) state =
        some ((), { state with allocator.bytes := memory }) ∧
      (∀ x, ¬ (Extent.mk (cpuLocal + cpuInfo + 8 * index) (8 * count)).Holds x →
        memory x = state.allocator.bytes x) ∧
      (Extent.Apart ⟨info + 8 * index, 8 * count⟩ ⟨cpuLocal + cpuInfo + 8 * index, 8 * count⟩ →
        ∀ k < count, load64 memory (cpuLocal + cpuInfo + 8 * (index + k)) =
          load64 state.allocator.bytes (info + 8 * (index + k))) := by
  induction count generalizing index state with
  | zero => exact ⟨state.allocator.bytes, rfl, fun _ _ ↦ rfl, fun _ k hk ↦ absurd hk (by omega)⟩
  | succ count ih =>
    have hread : Word64.add info (8 * index) = info + 8 * index := Word64.add_of_lt (by omega)
    have hwrite : Word64.add cpuLocal (cpuInfo + 8 * index) = cpuLocal + cpuInfo + 8 * index := by
      rw [Word64.add_of_lt (by omega), add_assoc]
    obtain ⟨memory, hrun, houtside, hcopied⟩ :=
      ih { state with
        allocator.bytes := store64 state.allocator.bytes (cpuLocal + cpuInfo + 8 * index)
          (load64 state.allocator.bytes (info + 8 * index)) } (index + 1) (by omega) (by omega)
    refine ⟨memory, ?_, fun x hx ↦ ?_, fun hapart k hk ↦ ?_⟩
    · rw [copyInfo, run_loadField _ _ _ _ hinfo, run_storeField _ _ _ _ _ hcpuLocal, hread, hwrite]
      exact hrun
    · simp only [Extent.Holds, Extent.stop] at hx houtside
      rw [houtside x (by omega)]
      exact store64_of_outside (by omega)
    · simp only [Extent.Apart, Extent.stop, Extent.Holds] at hapart houtside hcopied
      cases k with
      | zero =>
        rw [add_zero, load64_congr fun x hlow hhigh ↦ houtside x (by omega)]
        exact load64_store64_same (load64_lt _ _)
      | succ k =>
        have hlater := hcopied (by omega) k (by omega)
        rw [load64_store64_of_apart (by omega)] at hlater
        rw [show index + (k + 1) = index + 1 + k by ring]
        exact hlater

/-- What `ap_entry` writes into a `CPULocal` of its own. -/
theorem exists_localReady (state : KernelState) {idle : ℕ} (hcpuLocal : cpuLocal ≠ 0)
    (hlocal : cpuLocal + cpuLocalSize ≤ 2 ^ 64) (hidle : idle < 2 ^ 64) (hinfo : info ≠ 0)
    (hbound : info + 32 ≤ 2 ^ 64) :
    ∃ memory, (∀ {α : Type} (rest : KernelCode α),
        run execKernel (storeField cpuLocal cpuIdleTask idle >>= fun _ ↦
            storeField cpuLocal cpuCurrentTask idle >>= fun _ ↦
              copyInfo cpuLocal info 0 4 >>= fun _ ↦ rest) state =
          run execKernel rest { state with allocator.bytes := memory }) ∧
      (∀ x, ¬ (Extent.mk cpuLocal cpuLocalSize).Holds x → memory x = state.allocator.bytes x) ∧
      LocalReady memory cpuLocal idle ∧
      (Extent.Apart ⟨info, 32⟩ ⟨cpuLocal, cpuLocalSize⟩ → ∀ k < 4,
        load64 memory (cpuLocal + cpuInfo + 8 * k) = load64 memory (info + 8 * k)) := by
  have hfirst : Word64.add cpuLocal cpuIdleTask = cpuLocal := Word64.add_of_lt (by
    simp only [cpuIdleTask, cpuLocalSize] at hlocal ⊢
    omega)
  have hsecond : Word64.add cpuLocal cpuCurrentTask = cpuLocal + 8 := Word64.add_of_lt (by
    simp only [cpuCurrentTask, cpuLocalSize] at hlocal ⊢
    omega)
  have hcopyLocal : cpuLocal + cpuInfo + 8 * (0 + 4) ≤ 2 ^ 64 := hlocal
  obtain ⟨memory, hrun, houtside, hcopied⟩ := run_copyInfo { state with
    allocator.bytes := store64 (store64 state.allocator.bytes cpuLocal idle) (cpuLocal + 8) idle }
    0 hcpuLocal hinfo hcopyLocal hbound
  simp only [Extent.Holds, Extent.Apart, Extent.stop, mul_zero, add_zero, zero_add, cpuInfo]
    at houtside hcopied
  refine ⟨memory, fun rest ↦ ?_, fun x hx ↦ ?_, ⟨?_, ?_⟩, fun hapart k hk ↦ ?_⟩
  · rw [run_storeField _ _ _ _ _ hcpuLocal, run_storeField _ _ _ _ _ hcpuLocal, hfirst, hsecond]
    exact run_bind_of_eq hrun
  · simp only [Extent.Holds, Extent.stop, cpuLocalSize] at hx
    rw [houtside x (by omega), store64_of_outside (by omega), store64_of_outside (by omega)]
  · rw [cpuIdleTask, add_zero, load64_congr fun x hlow hhigh ↦ houtside x (by omega),
      load64_store64_of_apart (by omega), load64_store64_same hidle]
  · rw [cpuCurrentTask, load64_congr fun x hlow hhigh ↦ houtside x (by omega),
      load64_store64_same hidle]
  · simp only [Extent.Apart, Extent.stop, cpuLocalSize] at hapart
    rw [cpuInfo, hcopied (by omega) k hk]
    exact (load64_congr fun x hlow hhigh ↦ houtside x (by omega)).symm

/-- `ap_entry` ends at `task_run` with its own `CPULocal` and idle task. -/
theorem Populated.apEntry (h : Populated mapping text state extents tasks) (hinfo : info ≠ 0)
    (hbound : info + 32 ≤ 2 ^ 64) (hframes : HasFrames (4 + count) state.allocator) :
    ∃ cpuLocal idle after, run execKernel (apEntry mapping.hhdmOffset text info) state =
        some ((cpuLocal, load64 after.allocator.bytes (idle.address + field .rsp)), after) ∧
      idle.entry = .idleTaskEntry ∧
      Populated mapping text after
        (idle.stackExtent :: idle.record :: ⟨cpuLocal, cpuLocalSize⟩ :: extents) (tasks ++ [idle]) ∧
      LocalReady after.allocator.bytes cpuLocal idle.address ∧
      (Extent.Apart ⟨info, 32⟩ ⟨cpuLocal, cpuLocalSize⟩ → ∀ k < 4,
        load64 after.allocator.bytes (cpuLocal + cpuInfo + 8 * k) =
          load64 after.allocator.bytes (info + 8 * k)) ∧
      Kept extents (tasks ++ [idle]) state.allocator.bytes after.allocator.bytes ∧
      HasFrames count after.allocator := by
  have hlocalCount : frameCounts cpuLocalSize = 1 := by
    rw [frameCounts_of_lt (by norm_num [cpuLocalSize])]
    rfl
  have hlocalFrames : HasFrames (frameCounts cpuLocalSize + (3 + count)) state.allocator := by
    rw [hlocalCount, ← add_assoc]
    exact hframes
  obtain ⟨cpuLocal, final, hlocalRun, hlocal, hlocalKept, hlocalLeft⟩ :=
    h.kmalloc (by decide) (by decide) (by omega) hlocalFrames
  obtain ⟨idle, middle, hidleRun, hidleEntry, hidle, hidleKept, hleft⟩ :=
    hlocal.createTask .idleTaskEntry hlocalLeft
  have hlocalBounds := hlocal.lends.bounds List.mem_cons_self
  have hidleBounds := hidle.lends.bounds (hidle.blocks idle (by simp)).1
  have hidleWord : idle.address < 2 ^ 64 := by
    simp only [Extent.stop, taskSize] at hidleBounds
    omega
  obtain ⟨memory, hrun, houtside, hready, hcopied⟩ := exists_localReady middle hlocalBounds.1
    hlocalBounds.2 hidleWord hinfo hbound
  have hblock : (⟨cpuLocal, cpuLocalSize⟩ : Extent) ∈
      idle.stackExtent :: idle.record :: ⟨cpuLocal, cpuLocalSize⟩ :: extents := by simp
  have hother (task : TaskRecord Entry) (_ : task ∈ tasks ++ [idle]) :
      (⟨cpuLocal, cpuLocalSize⟩ : Extent) ≠ task.record ∧
        (⟨cpuLocal, cpuLocalSize⟩ : Extent) ≠ task.stackExtent := by
    constructor
    · intro heq
      exact absurd (Extent.mk.inj heq).2 (by decide)
    · intro heq
      exact absurd (Extent.mk.inj heq).2 (by decide)
  refine ⟨cpuLocal, idle, { middle with allocator.bytes := memory }, ?_, hidleEntry,
    hidle.write hblock hother houtside, hready, hcopied, ?_, hleft⟩
  · have hfield : Word64.add idle.address (field .rsp) = idle.address + field .rsp := by
      apply Word64.add_of_lt
      have hle := (field_add_le .rsp)
      simp only [Extent.stop, taskSize] at hidleBounds
      omega
    rw [Kernel.apEntry, run_allocate_bind state _ hlocalRun, run_bind_of_eq hidleRun, hrun,
      run_loadField _ _ _ _ hidleBounds.1, hfield]
    rfl
  · intro extent hextent x hx hout
    have hapart := (List.pairwise_cons.mp hlocal.lends.pairwise).1 extent hextent
    calc memory x = middle.allocator.bytes x := houtside x (hapart.symm.not_holds hx)
      _ = final.bytes x := hidleKept extent (List.mem_cons_of_mem _ hextent) x hx hout
      _ = state.allocator.bytes x := hlocalKept extent hextent x hx

/-- The record and the stack of a task are placed as those of an idle task. -/
theorem Recorded.idlePlaced {allocator : AllocatorState}
    (h : Recorded mapping text allocator extents tasks) (hend : mapping.EndsBefore)
    (hidle : idle ∈ tasks) : IdlePlaced idle.address idle.stack := by
  obtain ⟨hrecord, hstack⟩ := h.blocks idle hidle
  have hblock := stackBlock_of_lends h.lends hrecord hstack
  exact ⟨h.lends.stop_lt hend hrecord (by simp only [taskSize]; norm_num), hblock.stack_lt,
    hblock.apart⟩

/-- Every other task has its record and its stack elsewhere. -/
theorem Recorded.elsewhere {allocator : AllocatorState}
    (h : Recorded mapping text allocator extents tasks) (hend : mapping.EndsBefore)
    (hidle : idle ∈ tasks) (htask : task ∈ tasks) (hrecord : task.address ≠ idle.address)
    (hstack : task.stack ≠ idle.stack) :
    Elsewhere idle.address idle.stack task.address task.stack := by
  obtain ⟨hidleRecord, hidleStack⟩ := h.blocks idle hidle
  obtain ⟨htaskRecord, htaskStack⟩ := h.blocks task htask
  have hplaced := h.idlePlaced hend htask
  exact {
    recordBound := hplaced.recordBound
    stackBound := hplaced.stackBound
    recordRecord := h.lends.apart htaskRecord hidleRecord fun heq ↦ hrecord (Extent.mk.inj heq).1
    recordStack := (stackBlock_of_lends h.lends htaskRecord hidleStack).apart
    stackRecord := (stackBlock_of_lends h.lends hidleRecord htaskStack).apart.symm
    stackStack := h.lends.apart htaskStack hidleStack fun heq ↦ hstack (Extent.mk.inj heq).1 }

/-- A processor at `task_run`, whose `gs` points at its `CPULocal`, is where dispatching starts. -/
theorem Ready.starting {core : X86.Core} {t : ℕ} (h : Ready text core.memory idle)
    (hentry : idle.entry = .idleTaskEntry) (hlocal : LocalReady core.memory cpuLocal idle.address)
    (hrip : core.rip = text.address .taskRun)
    (hrdi : core.reg .rdi = load64 core.memory (idle.address + field .rsp))
    (hgs : ∀ offset, core.gs offset = load64 core.memory (cpuLocal + offset)) :
    Dispatched.Starting text idle.address idle.stack ⟨core, t⟩ where
  rip := hrip
  rdi := hrdi
  idleTask := (hgs _).trans hlocal.idleTask
  currentTask := (hgs _).trans hlocal.currentTask
  fresh := hentry ▸ h.fresh

end Startup

/-- A processor that has come to `task_run`: its `CPULocal` and its idle task. -/
structure ProcessorRecord (Entry : Type) where
  cpuLocal : ℕ
  idle : TaskRecord Entry

section Processors

variable {Entry : Type}

/-- `ap_entry` on processors one after another, each with its `info`. -/
def apEntries (hhdmOffset : ℕ) (text : Text Entry) : List ℕ → KernelCode (List (ℕ × ℕ))
  | [] => pure []
  | info :: infos => do
    let first ← apEntry hhdmOffset text info
    let rest ← apEntries hhdmOffset text infos
    pure (first :: rest)

/-- The base of `gs` and the argument of `task_run` that a processor comes to. -/
def ProcessorRecord.answer (processor : ProcessorRecord Entry) : ℕ × ℕ :=
  (processor.cpuLocal, stackTop processor.idle.stack - 32)

def ProcessorRecord.extents (processor : ProcessorRecord Entry) : List Extent :=
  [processor.idle.stackExtent, processor.idle.record, ⟨processor.cpuLocal, cpuLocalSize⟩]

/-- What a processor found when it came to `task_run` is still there. -/
structure Started (text : Text Entry) (state : KernelState) (extents : List Extent)
    (tasks : List (TaskRecord Entry)) (processor : ProcessorRecord Entry) : Prop where
  mem : processor.idle ∈ tasks
  entry : processor.idle.entry = .idleTaskEntry
  block : (⟨processor.cpuLocal, cpuLocalSize⟩ : Extent) ∈ extents
  local_ready : LocalReady state.allocator.bytes processor.cpuLocal processor.idle.address

variable {mapping : Mapping} {text : Text Entry} {state after : KernelState}
  {extents later : List Extent} {tasks more : List (TaskRecord Entry)}
  {processor : ProcessorRecord Entry} {infos : List ℕ} {count : ℕ}

/-- A processor stays started while blocks of others and `next` fields change. -/
theorem Started.kept (h : Started text state extents tasks processor)
    (hpopulated : Populated mapping text after later more) (hextents : extents ⊆ later)
    (htasks : tasks ⊆ more)
    (hkept : Kept extents more state.allocator.bytes after.allocator.bytes) :
    Started text after later more processor := by
  have hsame (x : ℕ) (hx : (Extent.mk processor.cpuLocal cpuLocalSize).Holds x) :
      after.allocator.bytes x = state.allocator.bytes x := by
    refine hkept _ h.block x hx fun task htask hnext ↦ ?_
    have hapart := hpopulated.lends.apart (hextents h.block) (hpopulated.blocks task htask).1
      fun heq ↦ absurd (Extent.mk.inj heq).2 (by decide)
    exact hapart.not_holds hx (nextField_within.holds hnext)
  have hfield (offset : ℕ) (hoffset : offset + 8 ≤ cpuLocalSize) :
      load64 after.allocator.bytes (processor.cpuLocal + offset) =
        load64 state.allocator.bytes (processor.cpuLocal + offset) := by
    apply load64_of_agree hsame
    simp only [Extent.Within, Extent.stop]
    omega
  exact {
    mem := htasks h.mem
    entry := h.entry
    block := hextents h.block
    local_ready := ⟨(hfield cpuIdleTask (by decide)).trans h.local_ready.idleTask,
      (hfield cpuCurrentTask (by decide)).trans h.local_ready.currentTask⟩ }

/-- With four frames for each of them, any number of processors come to `task_run`. -/
theorem Populated.apEntries (h : Populated mapping text state extents tasks)
    (hinfos : ∀ info ∈ infos, info ≠ 0 ∧ info + 32 ≤ 2 ^ 64)
    (hframes : HasFrames (4 * infos.length + count) state.allocator) :
    ∃ (started : List (ProcessorRecord Entry)) (after : KernelState),
      run execKernel (apEntries mapping.hhdmOffset text infos) state =
        some (started.map ProcessorRecord.answer, after) ∧ started.length = infos.length ∧
      Populated mapping text after
        (started.reverse.flatMap ProcessorRecord.extents ++ extents)
        (tasks ++ started.map ProcessorRecord.idle) ∧
      (∀ processor ∈ started, Started text after
        (started.reverse.flatMap ProcessorRecord.extents ++ extents)
        (tasks ++ started.map ProcessorRecord.idle) processor) ∧
      Kept extents (tasks ++ started.map ProcessorRecord.idle) state.allocator.bytes
        after.allocator.bytes ∧
      HasFrames count after.allocator := by
  induction infos generalizing state extents tasks with
  | nil =>
    rw [List.length_nil, mul_zero, zero_add] at hframes
    refine ⟨[], state, rfl, rfl, ?_, by simp, fun _ _ _ _ _ ↦ rfl, hframes⟩
    simpa using h
  | cons info infos ih =>
    obtain ⟨hinfo, hlater⟩ := List.forall_mem_cons.mp hinfos
    have hfirstFrames : HasFrames (4 + (4 * infos.length + count)) state.allocator := by
      rw [List.length_cons] at hframes
      rwa [show 4 + (4 * infos.length + count) = 4 * (infos.length + 1) + count by ring]
    obtain ⟨cpuLocal, idle, middle, hrun, hentry, hmiddle, hlocal, -, hkept, hleft⟩ :=
      h.apEntry hinfo.1 hinfo.2 hfirstFrames
    obtain ⟨started, after, hlaterRun, hlength, hafter, hstarted, hlaterKept, hrest⟩ :=
      ih hmiddle hlater hleft
    have hextents : ((⟨cpuLocal, idle⟩ : ProcessorRecord Entry) :: started).reverse.flatMap
        ProcessorRecord.extents ++ extents = started.reverse.flatMap ProcessorRecord.extents ++
          (idle.stackExtent :: idle.record :: ⟨cpuLocal, cpuLocalSize⟩ :: extents) := by
      simp [ProcessorRecord.extents]
    have htasks : tasks ++ ((⟨cpuLocal, idle⟩ : ProcessorRecord Entry) :: started).map
        ProcessorRecord.idle = tasks ++ [idle] ++ started.map ProcessorRecord.idle := by simp
    have hfirst : Started text middle
        (idle.stackExtent :: idle.record :: ⟨cpuLocal, cpuLocalSize⟩ :: extents) (tasks ++ [idle])
        ⟨cpuLocal, idle⟩ :=
      ⟨by simp, hentry, by simp, hlocal⟩
    rw [← hextents, ← htasks] at hafter hstarted
    rw [← htasks] at hlaterKept
    refine ⟨⟨cpuLocal, idle⟩ :: started, after, ?_, congrArg (· + 1) hlength, hafter, ?_, ?_, hrest⟩
    · have hrsp := (hmiddle.ready idle (by simp)).fresh.rsp
      rw [Creation.apEntries, run_bind_of_eq hrun, run_bind_of_eq hlaterRun, hrsp]
      rfl
    · rw [List.forall_mem_cons]
      refine ⟨hfirst.kept hafter ?_ ?_ hlaterKept, hstarted⟩
      · rw [hextents]
        exact List.subset_append_right _ _
      · rw [htasks]
        exact List.subset_append_left _ _
    · have hearlier : Kept extents (tasks ++ ((⟨cpuLocal, idle⟩ : ProcessorRecord Entry) ::
          started).map ProcessorRecord.idle) state.allocator.bytes middle.allocator.bytes := by
        rw [htasks]
        exact hkept.mono (List.Subset.refl _) (List.subset_append_left _ _)
      exact hearlier.trans (hlaterKept.mono (fun extent hextent ↦ by simp [hextent])
        (List.Subset.refl _))

end Processors

end SideHOS.Tasks.Creation
