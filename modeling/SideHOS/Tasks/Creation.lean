import SideHOS.Heap.Lending
import SideHOS.Tasks.Launch
import SideHOS.Tasks.Stored

/-!
# The tasks of `kmain`

Each turn of the loop of `kmain` takes two blocks for a record and a stack, prepares both, and
appends the record to the list.  Neither the next call of `kmalloc` nor the next `task_init` writes
to what was prepared before, apart from the `next` field of the last task.  With enough frames the
loop thus ends with all tasks in the queue in order, each as its first dispatch needs it, and
nothing else taken from the heap.
-/

namespace SideHOS.Tasks.Creation

open Heap Kernel Kernel.Context Linked Machine Machine.ByteMemory Sharing Sharing.Program Switch

/-- A task: its record, its stack and its entry function. -/
structure TaskRecord (Entry : Type) where
  address : ℕ
  stack : ℕ
  entry : Label Entry

section Tasks

variable {Entry : Type}

abbrev TaskRecord.record (task : TaskRecord Entry) : Extent := ⟨task.address, taskSize⟩

abbrev TaskRecord.stackExtent (task : TaskRecord Entry) : Extent := ⟨task.stack, 4096⟩

def blocksOf (tasks : List (TaskRecord Entry)) : List Extent :=
  tasks.reverse.flatMap fun task ↦ [task.stackExtent, task.record]

/-- What `task_init` leaves of a task in memory, if its record was zero: the context is zero but for
the stack pointer. -/
structure Ready (text : Text Entry) (memory : Memory) (task : TaskRecord Entry) : Prop where
  stackField : load64 memory task.address = task.stack
  fresh : Fresh text memory task.address task.stack task.entry
  context : ∀ x, (contextExtent task.address).Holds x →
    ¬ (Extent.mk (task.address + field .rsp) 8).Holds x → memory x = 0

/-- The heap has given out these extents, the blocks of the tasks among them, and each task is
ready. -/
structure Recorded (mapping : Mapping) (text : Text Entry) (allocator : AllocatorState)
    (extents : List Extent) (tasks : List (TaskRecord Entry)) : Prop where
  lends : Lends mapping allocator extents
  blocks : ∀ task ∈ tasks, task.record ∈ extents ∧ task.stackExtent ∈ extents
  ready : ∀ task ∈ tasks, Ready text allocator.bytes task

structure Populated (mapping : Mapping) (text : Text Entry) (state : KernelState)
    (extents : List Extent) (tasks : List (TaskRecord Entry)) : Prop
    extends Recorded mapping text state.allocator extents tasks where
  chain : Chain 0 (nextTask state.allocator.bytes) state.tasks (tasks.map TaskRecord.address)
  lock : state.taskLock = 0

/-- Memory is the same in these extents, apart from the `next` fields of the tasks. -/
def Kept (extents : List Extent) (tasks : List (TaskRecord Entry)) (before after : Memory) : Prop :=
  ∀ extent ∈ extents, ∀ x, extent.Holds x →
    (∀ task ∈ tasks, ¬ (nextField task.address).Holds x) → after x = before x

variable {mapping : Mapping} {text : Text Entry} {allocator final : AllocatorState}
  {state : KernelState} {extents : List Extent} {tasks : List (TaskRecord Entry)}
  {task other : TaskRecord Entry} {before after : Memory} {entry : Label Entry} {t stack size : ℕ}

/-! ## What a task is made of -/

/-- A task is ready as long as its record before the `next` field and its stack are kept. -/
theorem Ready.congr (h : Ready text before task)
    (hrecord : ∀ x, (Extent.mk task.address taskNext).Holds x → after x = before x)
    (hstack : ∀ x, task.stackExtent.Holds x → after x = before x) : Ready text after task := by
  have hlow := le_stackTop task.stack
  have hhigh := stackTop_le task.stack
  have hfield (offset : ℕ) (hoffset : offset ≤ 160) :
      load64 after (task.address + offset) = load64 before (task.address + offset) := by
    apply load64_of_agree hrecord
    simp only [Extent.Within, Extent.stop, taskNext]
    omega
  have hword (offset : ℕ) (hoffset : 8 ≤ offset ∧ offset ≤ 32) :
      load64 after (stackTop task.stack - offset) =
        load64 before (stackTop task.stack - offset) := by
    apply load64_of_agree hstack
    simp only [Extent.Within, Extent.stop]
    omega
  have hwithin : (contextExtent task.address).Within ⟨task.address, taskNext⟩ := by
    simp only [Extent.Within, Extent.stop, taskContext, contextSize, taskNext]
    omega
  refine ⟨?_, ⟨?_, ?_, ?_, ?_, ?_, ?_⟩,
    fun x hx hrsp ↦ (hrecord x (hwithin.holds hx)).trans (h.context x hx hrsp)⟩
  · exact (hfield 0 (by norm_num)).trans h.stackField
  · exact (hfield 8 (by norm_num)).trans h.fresh.entryField
  · exact (hfield _ (by decide)).trans h.fresh.rsp
  · exact (hword 32 (by norm_num)).trans h.fresh.trampoline
  · exact (hword 24 (by norm_num)).trans h.fresh.entryWord
  · exact (hword 16 (by norm_num)).trans h.fresh.taskWord
  · exact (hword 8 (by norm_num)).trans h.fresh.exitWord

/-- A record and a stack that the heap has given out, as `task_init` needs them. -/
theorem stackBlock_of_lends (h : Lends mapping allocator extents)
    (hrecord : Extent.mk t taskSize ∈ extents) (hstack : Extent.mk stack 4096 ∈ extents) :
    StackBlock t stack := by
  obtain ⟨live, heap, hserves, -, hextents⟩ := h
  obtain ⟨record, hrecordLive, hrecordEq⟩ := (Lends.mem_iff_live hextents).mp hrecord
  obtain ⟨block, hblockLive, hblockEq⟩ := (Lends.mem_iff_live hextents).mp hstack
  obtain ⟨hpointer, hsize⟩ := Extent.mk.inj hblockEq
  have hne : record ≠ block := by
    rintro rfl
    have hlength := (Extent.mk.inj hrecordEq).2
    rw [hsize] at hlength
    exact absurd hlength (by decide)
  rw [← hpointer]
  apply stackBlock_of_live hserves hblockLive hsize hrecordLive hne
  rw [hrecordEq]
  exact ⟨le_rfl, le_rfl⟩

theorem nextField_within : (nextField t).Within ⟨t, taskSize⟩ := by
  simp only [Extent.Within, Extent.stop, taskNext, taskSize]
  omega

/-- `task_init` leaves its task ready. -/
theorem ready_taskInitStack (hblock : StackBlock t stack)
    (hzero : ∀ x, (Extent.mk t taskSize).Holds x → before x = 0) :
    Ready text (taskInitStack text t stack entry before) ⟨t, stack, entry⟩ where
  stackField := by
    have hlow := le_stackTop stack
    have hhigh := stackTop_le stack
    have hword := hblock.stack_lt
    have hfield : field .rsp = 144 := rfl
    have hapart := hblock.apart
    simp only [Extent.Apart, Extent.stop, taskSize] at hapart
    simp only [taskInitStack, hfield]
    rw [load64_store64_of_apart (by omega), load64_store64_of_apart (by omega),
      load64_store64_of_apart (by omega), load64_store64_of_apart (by omega),
      load64_store64_of_apart (by omega), load64_store64_of_apart (by omega),
      load64_store64_same (by omega)]
  fresh := fresh_taskInitStack text before entry hblock.record_le hblock.stack_lt hblock.apart
  context := by
    intro x hx hrsp
    have hlow := le_stackTop stack
    have hhigh := stackTop_le stack
    have hfield : field .rsp = 144 := rfl
    have hapart := hblock.apart
    simp only [Extent.Apart, Extent.stop, taskSize] at hapart
    simp only [Extent.Holds, Extent.stop, taskContext, contextSize, hfield] at hx hrsp
    simp only [taskInitStack, hfield]
    rw [store64_of_outside (by omega), store64_of_outside (by omega), store64_of_outside (by omega),
      store64_of_outside (by omega), store64_of_outside (by omega), store64_of_outside (by omega),
      store64_of_outside (by omega)]
    apply hzero
    simp only [Extent.Holds, Extent.stop, taskSize]
    omega

/-- A ready task starts without the trap flag. -/
theorem Ready.contextTrapFlag_eq (h : Ready text before task) :
    contextTrapFlag before task.address = false := by
  have hflags : load64 before (task.address + (taskContext + contextRflags)) = 0 := by
    apply loadBytes_zero
    intro x hlow hhigh
    apply h.context x
    · exact (rflags_within task.address).holds ⟨hlow, hhigh⟩
    · have hfield : field .rsp = 144 := rfl
      simp only [taskContext, contextRflags] at hlow
      simp only [Extent.Holds, Extent.stop, hfield]
      omega
  rw [contextTrapFlag, hflags, Nat.zero_testBit]

/-- The `next` fields of tasks are in their records, which do not overlap. -/
theorem Recorded.distinct (h : Recorded mapping text allocator extents tasks) :
    Distinct (tasks.map TaskRecord.address) where
  word := by
    intro address haddress
    obtain ⟨task, htask, rfl⟩ := List.mem_map.mp haddress
    have hstop := (h.lends.bounds (h.blocks task htask).1).2
    simp only [Extent.stop, taskSize] at hstop
    simp only [taskNext]
    omega
  apart := by
    intro first hfirst second hsecond hne
    obtain ⟨task, htask, rfl⟩ := List.mem_map.mp hfirst
    obtain ⟨other, hother, rfl⟩ := List.mem_map.mp hsecond
    have hrecords := h.lends.apart (h.blocks task htask).1 (h.blocks other hother).1
      fun heq ↦ hne (Extent.mk.inj heq).1
    exact (hrecords.mono_left nextField_within).mono_right nextField_within

/-- What keeps the blocks of the tasks, apart from `next` fields, keeps the tasks ready. -/
theorem Recorded.ready_of_kept (h : Recorded mapping text allocator extents tasks)
    (hkept : Kept extents tasks allocator.bytes after) :
    ∀ task ∈ tasks, Ready text after task := by
  intro task htask
  obtain ⟨hrecord, hstack⟩ := h.blocks task htask
  apply (h.ready task htask).congr
  · intro x hx
    have hwithin : Extent.Within ⟨task.address, taskNext⟩ task.record :=
      ⟨le_rfl, Nat.add_le_add_left (show taskNext ≤ taskSize by decide) _⟩
    refine hkept _ hrecord x (hwithin.holds hx) fun other hother hnext ↦ ?_
    by_cases heq : other.address = task.address
    · simp only [Extent.Holds, Extent.stop, heq] at hx hnext
      omega
    · have hrecords := h.lends.apart hrecord (h.blocks other hother).1
        fun hsame ↦ heq (Extent.mk.inj hsame).1.symm
      exact hrecords.not_holds (hwithin.holds hx) (nextField_within.holds hnext)
  · intro x hx
    refine hkept _ hstack x hx fun other hother hnext ↦ ?_
    have hapart := (stackBlock_of_lends h.lends (h.blocks other hother).1 hstack).apart
    exact hapart.not_holds (nextField_within.holds hnext) hx

/-! ## Adding a task -/

/-- After two more calls of `kmalloc` and what `task_init` writes before it comes to the queue, one
more task is recorded. -/
theorem Recorded.add (h : Recorded mapping text allocator extents tasks)
    (hlends : Lends mapping final (⟨stack, 4096⟩ :: ⟨t, taskSize⟩ :: extents))
    (hkept : ∀ extent ∈ extents, ∀ x, extent.Holds x → final.bytes x = allocator.bytes x)
    (hzero : ∀ x, (Extent.mk t taskSize).Holds x → final.bytes x = 0) (entry : Label Entry) :
    Recorded mapping text { final with bytes := taskInitStack text t stack entry final.bytes }
        (⟨stack, 4096⟩ :: ⟨t, taskSize⟩ :: extents) (tasks ++ [⟨t, stack, entry⟩]) ∧
      ∀ extent ∈ extents, ∀ x, extent.Holds x →
        taskInitStack text t stack entry final.bytes x = allocator.bytes x := by
  have hblock : StackBlock t stack := stackBlock_of_lends hlends (by simp) (by simp)
  obtain ⟨hstackApart, hrecordApart, -⟩ := List.pairwise_cons.mp hlends.pairwise |>.imp_right
    List.pairwise_cons.mp
  have hsame (extent : Extent) (hextent : extent ∈ extents) (x : ℕ) (hx : extent.Holds x) :
      taskInitStack text t stack entry final.bytes x = allocator.bytes x := by
    rw [taskInitStack_of_outside, hkept extent hextent x hx]
    · exact (hrecordApart extent hextent).symm.not_holds hx
    · exact (hstackApart extent (List.mem_cons_of_mem _ hextent)).symm.not_holds hx
  refine ⟨{ lends := ?_, blocks := ?_, ready := ?_ }, hsame⟩
  · apply hlends.write
    intro x hx
    apply taskInitStack_of_outside
    · exact hx _ (by simp)
    · exact hx _ (by simp)
  · intro task htask
    rcases List.mem_append.mp htask with hold | hnew
    · exact (h.blocks task hold).imp (fun hmem ↦ by simp [hmem]) fun hmem ↦ by simp [hmem]
    · rw [List.mem_singleton.mp hnew]
      simp
  · intro task htask
    rcases List.mem_append.mp htask with hold | hnew
    · exact h.ready_of_kept (fun extent hextent x hx _ ↦ hsame extent hextent x hx) task hold
    · rw [List.mem_singleton.mp hnew]
      exact ready_taskInitStack hblock hzero

/-- `task_init` up to the queue, with a stack from the heap. -/
theorem run_taskInit {hhdmOffset : ℕ} (hnull : t ≠ 0)
    (hrun : run exec (kmalloc hhdmOffset 4096) state.allocator = some (stack, final))
    (hblock : StackBlock t stack) :
    run execKernel (taskInit hhdmOffset text t entry) state =
      run execKernel (embed queueAccess (taskInitAppend t)) { state with
        allocator := { final with bytes := taskInitStack text t stack entry final.bytes } } := by
  have hlow := le_stackTop stack
  have hhigh := stackTop_le stack
  have hstack := hblock.stack_lt
  have hrecord := hblock.record_le
  have hfield : field .rsp = 144 := rfl
  unfold taskSize at hrecord
  have htop : Word64.add stack size4KB / 16 * 16 = stackTop stack := by
    rw [Word64.add_of_lt hstack, stackTop]
  have hpush (offset : ℕ) (hoffset : offset ≤ 24) :
      Word64.sub (stackTop stack - offset) 8 = stackTop stack - (offset + 8) := by
    rw [Word64.sub_of_le (by omega) (by omega), Nat.sub_sub]
  have hfirst : Word64.sub (stackTop stack) 8 = stackTop stack - 8 := hpush 0 (by norm_num)
  rw [taskInit, run_allocate_bind state _ hrun, run_storeField _ _ _ _ _ hnull,
    run_storeField _ _ _ _ _ hnull, htop, run_pushWord, run_pushWord, run_pushWord, run_pushWord,
    run_storeField _ _ _ _ _ hnull, hfirst, hpush 8 (by norm_num), hpush 16 (by norm_num),
    hpush 24 (by norm_num), Word64.add_of_lt (show t + 0 < 2 ^ 64 by omega),
    Word64.add_of_lt (show t + 8 < 2 ^ 64 by omega),
    Word64.add_of_lt (show t + field .rsp < 2 ^ 64 by omega)]
  rfl

/-- The list through records that are kept but for what is not their `next` field. -/
theorem Recorded.chain_of_kept (h : Recorded mapping text allocator extents tasks)
    (hkept : ∀ extent ∈ extents, ∀ x, extent.Holds x → after x = allocator.bytes x)
    (hchain : Chain 0 (nextTask allocator.bytes) t (tasks.map TaskRecord.address)) :
    Chain 0 (nextTask after) t (tasks.map TaskRecord.address) := by
  apply hchain.congr
  intro address haddress
  obtain ⟨task, htask, rfl⟩ := List.mem_map.mp haddress
  exact load64_of_agree (hkept _ (h.blocks task htask).1) nextField_within

/-- A record that `kmalloc` has just given is the record of no task. -/
theorem Recorded.fresh_address (h : Recorded mapping text allocator extents tasks)
    (hlends : Lends mapping final (⟨stack, 4096⟩ :: ⟨t, taskSize⟩ :: extents)) :
    t ∉ tasks.map TaskRecord.address := by
  intro hmem
  obtain ⟨task, htask, rfl⟩ := List.mem_map.mp hmem
  have hrecords := (List.pairwise_cons.mp hlends.pairwise).2
  have hself := (List.pairwise_cons.mp hrecords).1 _ (h.blocks task htask).1
  simp only [Extent.Apart, Extent.stop, taskSize] at hself
  omega

/-- The last part of `task_init` puts a recorded task at the end of the queue. -/
theorem Recorded.enqueue (state : KernelState)
    (h : Recorded mapping text state.allocator extents (tasks ++ [task]))
    (hchain : Chain 0 (nextTask state.allocator.bytes) state.tasks (tasks.map TaskRecord.address))
    (hlock : state.taskLock = 0) (hfresh : task.address ∉ tasks.map TaskRecord.address) :
    ∃ after, run execKernel (embed queueAccess (taskInitAppend task.address)) state =
        some (0, after) ∧
      Populated mapping text after extents (tasks ++ [task]) ∧
      Kept extents (tasks ++ [task]) state.allocator.bytes after.allocator.bytes ∧
      after.allocator.context = state.allocator.context := by
  have hmap : (tasks ++ [task]).map TaskRecord.address =
      tasks.map TaskRecord.address ++ [task.address] := by simp
  have hdistinct := h.distinct
  rw [hmap] at hdistinct
  have hnull := (h.lends.bounds (h.blocks task (by simp)).1).1
  obtain ⟨after, hrun, hafter, hfree, hallocator, houtside⟩ :=
    run_taskInitAppend_stored hdistinct hnull hfresh hchain hlock
  rw [← hmap] at houtside hafter
  have hkept : Kept extents (tasks ++ [task]) state.allocator.bytes after.allocator.bytes := by
    intro extent _ x _ hx
    apply houtside
    intro address haddress
    obtain ⟨other, hother, rfl⟩ := List.mem_map.mp haddress
    exact hx other hother
  have hlends : Lends mapping after.allocator extents := by
    rw [hallocator]
    apply h.lends.write
    intro x hx
    apply houtside
    intro address haddress hholds
    obtain ⟨other, hother, rfl⟩ := List.mem_map.mp haddress
    exact hx _ (h.blocks other hother).1 (nextField_within.holds hholds)
  have hpopulated : Populated mapping text after extents (tasks ++ [task]) :=
    { lends := hlends
      blocks := h.blocks
      ready := h.ready_of_kept hkept
      chain := hafter
      lock := hfree }
  have hcontext : after.allocator.context = state.allocator.context := by rw [hallocator]
  exact ⟨after, hrun, hpopulated, hkept, hcontext⟩

/-- `kmalloc(sizeof(Task))` and `task_init` add a task. -/
theorem Populated.createTask {count : ℕ} (h : Populated mapping text state extents tasks)
    (entry : Label Entry) (hframes : HasFrames (3 + count) state.allocator) :
    ∃ task after, run execKernel (createTask mapping.hhdmOffset text entry) state =
        some (task.address, after) ∧ task.entry = entry ∧
      Populated mapping text after (task.stackExtent :: task.record :: extents) (tasks ++ [task]) ∧
      Kept extents (tasks ++ [task]) state.allocator.bytes after.allocator.bytes ∧
      HasFrames count after.allocator := by
  have hrecordCount : frameCounts taskSize = 1 := by
    rw [frameCounts_of_lt (by norm_num [taskSize])]
    rfl
  have hstackCount : frameCounts 4096 = 2 := frameCounts_of_lt (by norm_num)
  have hrecordFrames : HasFrames (frameCounts taskSize + (2 + count)) state.allocator := by
    rw [hrecordCount, ← add_assoc]
    exact hframes
  obtain ⟨t, middle, hrecordRun, hrecordLends, hrecordZero, hrecordKept, hrecordLeft⟩ :=
    h.lends.kmalloc (by decide) (by decide) (by omega) hrecordFrames
  have hstackFrames : HasFrames (frameCounts 4096 + count) middle := by
    rw [hstackCount]
    exact hrecordLeft
  obtain ⟨stack, final, hstackRun, hstackLends, -, hstackKept, hstackLeft⟩ :=
    hrecordLends.kmalloc (by norm_num) (by decide) (by omega) hstackFrames
  have hkept (extent : Extent) (hextent : extent ∈ extents) (x : ℕ) (hx : extent.Holds x) :
      final.bytes x = state.allocator.bytes x := by
    calc final.bytes x = middle.bytes x := hstackKept extent (List.mem_cons_of_mem _ hextent) x hx
      _ = state.allocator.bytes x := hrecordKept extent hextent x hx
  have hzero (x : ℕ) (hx : (Extent.mk t taskSize).Holds x) : final.bytes x = 0 :=
    (hstackKept _ List.mem_cons_self x hx).trans (hrecordZero (by decide) x hx)
  have hnull : t ≠ 0 := (hrecordLends.bounds List.mem_cons_self).1
  have hblock : StackBlock t stack := stackBlock_of_lends hstackLends (by simp) (by simp)
  obtain ⟨hrecorded, hsame⟩ := h.toRecorded.add hstackLends hkept hzero entry
  have hfresh := h.toRecorded.fresh_address hstackLends
  have hchain := h.toRecorded.chain_of_kept hsame h.chain
  obtain ⟨after, hrun, hpopulated, hnext, hcontext⟩ :=
    Recorded.enqueue ⟨_, state.tasks, state.taskLock⟩ hrecorded hchain h.lock hfresh
  refine ⟨⟨t, stack, entry⟩, after, ?_, rfl, hpopulated, ?_, ?_⟩
  · rw [Kernel.createTask, run_allocate_bind state _ hrecordRun]
    apply run_bind_of_eq
    rw [run_taskInit hnull hstackRun hblock]
    exact hrun
  · intro extent hextent x hx hout
    rw [hnext extent (by simp [hextent]) x hx hout]
    exact hsame extent hextent x hx
  · unfold HasFrames available at hstackLeft ⊢
    rw [hcontext]
    exact hstackLeft

end Tasks

/-! ## The loop -/

section Loop

variable {Entry : Type}

/-- What is kept among more extents, with fewer tasks, is kept. -/
theorem Kept.mono {extents later : List Extent} {tasks more : List (TaskRecord Entry)}
    {before after : Memory} (h : Kept later tasks before after) (hextents : extents ⊆ later)
    (htasks : tasks ⊆ more) : Kept extents more before after :=
  fun extent hextent x hx hout ↦
    h extent (hextents hextent) x hx fun task htask ↦ hout task (htasks htask)

theorem Kept.trans {extents : List Extent} {tasks : List (TaskRecord Entry)}
    {before middle after : Memory} (hfirst : Kept extents tasks before middle)
    (hsecond : Kept extents tasks middle after) : Kept extents tasks before after :=
  fun extent hextent x hx hout ↦
    (hsecond extent hextent x hx hout).trans (hfirst extent hextent x hx hout)

/-- The entry functions of the tasks that so many turns create. -/
def kmainEntries (turns : ℕ) : List (Label KmainEntry) :=
  (List.replicate turns [.entry .factorialTask, .entry .fibonacciTask]).flatten

variable {mapping : Mapping} {text : Text KmainEntry} {state : KernelState}
  {extents : List Extent} {tasks : List (TaskRecord KmainEntry)} {turns count : ℕ}

/-- With six frames for each turn, the loop ends, and each turn has added its two tasks. -/
theorem Populated.kmainCreate (h : Populated mapping text state extents tasks)
    (hframes : HasFrames (6 * turns + count) state.allocator) :
    ∃ created after, run execKernel (kmainCreate mapping.hhdmOffset text turns) state =
        some ((), after) ∧ created.map TaskRecord.entry = kmainEntries turns ∧
      Populated mapping text after (blocksOf created ++ extents) (tasks ++ created) ∧
      HasFrames count after.allocator := by
  induction turns generalizing state extents tasks with
  | zero =>
    rw [mul_zero, zero_add] at hframes
    refine ⟨[], state, rfl, rfl, ?_, hframes⟩
    rw [List.append_nil]
    exact h
  | succ turns ih =>
    have hfirstFrames : HasFrames (3 + (3 + (6 * turns + count))) state.allocator := by
      rwa [show 3 + (3 + (6 * turns + count)) = 6 * (turns + 1) + count by ring]
    obtain ⟨first, between, hfirstRun, hfirstEntry, hfirst, -, hbetween⟩ :=
      h.createTask (.entry .factorialTask) hfirstFrames
    obtain ⟨second, middle, hsecondRun, hsecondEntry, hsecond, -, hmiddle⟩ :=
      hfirst.createTask (.entry .fibonacciTask) hbetween
    obtain ⟨created, after, hrun, hentries, hafter, hleft⟩ := ih hsecond hmiddle
    refine ⟨first :: second :: created, after, ?_, ?_, ?_, hleft⟩
    · rw [Kernel.kmainCreate, run_bind_of_eq hfirstRun, run_bind_of_eq hsecondRun]
      exact hrun
    · rw [List.map_cons, List.map_cons, hfirstEntry, hsecondEntry, hentries]
      rfl
    · have hblocks : blocksOf (first :: second :: created) = blocksOf created ++
          [second.stackExtent, second.record, first.stackExtent, first.record] := by
        simp [blocksOf]
      rw [hblocks, List.append_assoc]
      rw [List.append_assoc, List.append_assoc] at hafter
      exact hafter

end Loop

end SideHOS.Tasks.Creation
