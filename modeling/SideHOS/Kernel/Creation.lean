import SideHOS.Kernel.Context
import SideHOS.Kernel.Tasks
import SideHOS.Sharing.Embedding

/-!
# The creation of tasks

`task_init` as a whole, the loop of `kmain` that creates the tasks, and `ap_entry` up to `task_run`,
over the memory behind pointers in which `kmalloc` gives out the records.  The queue is the one of
the module on tasks, with every `next` field where the layout of `Task` puts it.  A pointer to a
record is its address; going through `NULL` is a fault.
-/

namespace SideHOS.Kernel

open Context Machine.Word64 Sharing Sharing.Program

def taskNext : ℕ := 168

def cpuLocalSize : ℕ := 48

/-- `offsetof(CPULocal, info)`. -/
def cpuInfo : ℕ := 16

/-- The allocator, in whose memory the records are, `tasks` and `task_lock`. -/
@[ext]
structure KernelState where
  allocator : AllocatorState
  tasks : ℕ
  taskLock : ℕ

/-- An access of the allocator or to a record, or to the variables of the queue. -/
inductive KernelAccess where
  | memory (operation : Access)
  | loadTasks
  | storeTasks (task : ℕ)
  | taskLockAcquire
  | taskLockRelease

def execKernel : KernelAccess → KernelState → ℕ × KernelState
  | .memory operation, state =>
      ((exec operation state.allocator).1,
        { state with allocator := (exec operation state.allocator).2 })
  | .loadTasks, state => (state.tasks, state)
  | .storeTasks task, state => (0, { state with tasks := task })
  | .taskLockAcquire, state =>
      if state.taskLock = 0 then (1, { state with taskLock := 1 }) else (0, state)
  | .taskLockRelease, state => (0, { state with taskLock := 0 })

abbrev KernelCode (α : Type) := Program KernelAccess α

/-- An access to the queue, with the `next` fields in memory. -/
def queueAccess : QueueAccess → KernelAccess
  | .loadTasks => .loadTasks
  | .storeTasks task => .storeTasks task
  | .loadNext task => .memory (.load (add task taskNext))
  | .storeNext task value => .memory (.store (add task taskNext) value)
  | .lockAcquire => .taskLockAcquire
  | .lockRelease => .taskLockRelease

def allocate {α : Type} (code : Code α) : KernelCode α := embed .memory code

/-- The word at an offset from a pointer. -/
def loadField (record offset : ℕ) : KernelCode ℕ :=
  if record = 0 then .diverge else perform (.memory (.load (add record offset)))

/-- The store of a word at an offset from a pointer. -/
def storeField (record offset value : ℕ) : KernelCode ℕ :=
  if record = 0 then .diverge else perform (.memory (.store (add record offset) value))

section Creation

variable {Entry : Type} (hhdmOffset : ℕ) (text : Text Entry)

/-- `*(--sp) = value`; answers the new `sp`. -/
def pushWord (sp value : ℕ) : KernelCode ℕ := do
  let _ ← perform (.memory (.store (sub sp 8) value))
  pure (sub sp 8)

def taskInit (t : ℕ) (entry : Label Entry) : KernelCode ℕ := do
  let stack ← allocate (kmalloc hhdmOffset size4KB)
  let _ ← storeField t 0 stack
  let _ ← storeField t 8 (text.address entry)
  let sp := add stack size4KB / 16 * 16
  let sp ← pushWord sp (text.address .taskExit)
  let sp ← pushWord sp t
  let sp ← pushWord sp (text.address entry)
  let sp ← pushWord sp (text.address .taskTrampoline)
  let _ ← storeField t (field .rsp) sp
  embed queueAccess (taskInitAppend t)

/-- `Task *t = (Task*)kmalloc(sizeof(Task)); task_init(t, entry);` -/
def createTask (entry : Label Entry) : KernelCode ℕ := do
  let t ← allocate (kmalloc hhdmOffset taskSize)
  let _ ← taskInit hhdmOffset text t entry
  pure t

/-- The entry functions of the tasks that `kmain` creates. -/
inductive KmainEntry where
  | factorialTask
  | fibonacciTask
  deriving DecidableEq

/-- The loop of `kmain` with `i` turns to go. -/
def kmainCreate (text : Text KmainEntry) : ℕ → KernelCode Unit
  | 0 => pure ()
  | i + 1 => do
    let _ ← createTask hhdmOffset text (.entry .factorialTask)
    let _ ← createTask hhdmOffset text (.entry .fibonacciTask)
    kmainCreate text i

/-- `cpu_local->info = *info;`, word by word from the word at `index` on. -/
def copyInfo (cpuLocal info : ℕ) (index : ℕ) : ℕ → KernelCode Unit
  | 0 => pure ()
  | count + 1 => do
    let word ← loadField info (8 * index)
    let _ ← storeField cpuLocal (cpuInfo + 8 * index) word
    copyInfo cpuLocal info (index + 1) count

/-- `ap_entry` up to its call of `task_run`: answers the base that `gs` gets, and the argument of
`task_run`. -/
def apEntry (info : ℕ) : KernelCode (ℕ × ℕ) := do
  let cpuLocal ← allocate (kmalloc hhdmOffset cpuLocalSize)
  let idleTask ← createTask hhdmOffset text .idleTaskEntry
  let _ ← storeField cpuLocal cpuIdleTask idleTask
  let _ ← storeField cpuLocal cpuCurrentTask idleTask
  let _ ← copyInfo cpuLocal info 0 4
  let rsp ← loadField idleTask (field .rsp)
  pure (cpuLocal, rsp)

end Creation

section Access

variable {α : Type} (state : KernelState) (record offset value : ℕ) (next : ℕ → KernelCode α)

def allocatorPart : Part exec execKernel .memory where
  get := KernelState.allocator
  put allocator state := { state with allocator := allocator }
  get_put _ _ := rfl
  put_put _ _ _ := rfl
  put_get _ := rfl
  exec_eq _ _ := rfl

/-- A call of the allocator that returns. -/
theorem run_allocate_bind {β : Type} {code : Code β} {result : β} {after : AllocatorState}
    (rest : β → KernelCode α) (h : run exec code state.allocator = some (result, after)) :
    run execKernel (allocate code >>= rest) state =
      run execKernel (rest result) { state with allocator := after } := by
  apply run_bind_of_eq
  rw [allocate, allocatorPart.run_embed]
  change (run exec code state.allocator).map _ = _
  rw [h]
  rfl

theorem run_loadField (hrecord : record ≠ 0) :
    run execKernel (loadField record offset >>= next) state =
      run execKernel (next (Machine.ByteMemory.load64 state.allocator.bytes (add record offset)))
        state := by
  rw [loadField, if_neg hrecord]
  rfl

theorem run_storeField (hrecord : record ≠ 0) :
    run execKernel (storeField record offset value >>= next) state =
      run execKernel (next 0) { state with
        allocator.bytes := Machine.ByteMemory.store64 state.allocator.bytes (add record offset)
          value } := by
  rw [storeField, if_neg hrecord]
  rfl

theorem run_pushWord (sp : ℕ) :
    run execKernel (pushWord sp value >>= next) state =
      run execKernel (next (sub sp 8)) { state with
        allocator.bytes := Machine.ByteMemory.store64 state.allocator.bytes (sub sp 8) value } := by
  apply run_bind_of_eq
  rw [pushWord, run_perform_bind, run_pure]
  simp only [execKernel, exec]

end Access

end SideHOS.Kernel
