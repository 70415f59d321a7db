import SideHOS.Kernel.Heap

/-!
# The task queue

`tasks`, the `next` fields of tasks, and `task_lock`, with the two pieces of code that use them:
the end of `task_init`, which appends a task, and the head of the loop of `idle_task_entry`, which
takes the first one.  A pointer to a task is its address; going through `NULL` is a fault, after
which a processor does nothing more.

`idle_task_entry` waits for a task in a loop that gives the lock back and takes it again between
two tests of `tasks`.  One turn of this loop, from taking the lock to giving it back, is one call of
`idleTaskEntryTurn`; it answers the task, or `NULL` when the loop goes on.
-/

namespace SideHOS.Kernel

open Sharing Sharing.Program

/-- `tasks`, `task->next` for every task, and `task_lock`. -/
@[ext]
structure QueueState where
  tasks : ℕ
  next : ℕ → ℕ
  taskLock : ℕ

/-- One load, one store, or one locked exchange. -/
inductive QueueAccess where
  | loadTasks
  | storeTasks (task : ℕ)
  | loadNext (task : ℕ)
  | storeNext (task value : ℕ)
  | lockAcquire
  | lockRelease
  deriving DecidableEq

def execQueue : QueueAccess → QueueState → ℕ × QueueState
  | .loadTasks, state => (state.tasks, state)
  | .storeTasks task, state => (0, { state with tasks := task })
  | .loadNext task, state => (state.next task, state)
  | .storeNext task value, state =>
      (0, { state with next := Function.update state.next task value })
  | .lockAcquire, state =>
      if state.taskLock = 0 then (1, { state with taskLock := 1 }) else (0, state)
  | .lockRelease, state => (0, { state with taskLock := 0 })

abbrev QueueCode (α : Type) := Program QueueAccess α

def loadTaskNext (task : ℕ) : QueueCode ℕ :=
  if task = 0 then .diverge else perform (.loadNext task)

def storeTaskNext (task value : ℕ) : QueueCode ℕ :=
  if task = 0 then .diverge else perform (.storeNext task value)

/-- `while (cur->next) cur = cur->next;` -/
def lastTask : ℕ → ℕ → QueueCode ℕ
  | 0, _ => .diverge
  | fuel + 1, cur => do
    let next ← loadTaskNext cur
    if next = 0 then pure cur
    else do
      let next ← loadTaskNext cur
      lastTask fuel next

/-- The end of `task_init`: append the task. -/
def taskInitAppend (t : ℕ) : QueueCode ℕ :=
  .await .lockAcquire do
    let _ ← storeTaskNext t 0
    let tasks ← perform .loadTasks
    if tasks = 0 then do
      let _ ← perform (.storeTasks t)
      let _ ← perform .lockRelease
      pure 0
    else do
      let tasks ← perform .loadTasks
      let cur ← lastTask walkFuel tasks
      let _ ← storeTaskNext cur t
      let _ ← perform .lockRelease
      pure 0

/-- One turn of the loop of `idle_task_entry`: test `tasks` and take the first task, if any. -/
def idleTaskEntryTurn : QueueCode ℕ :=
  .await .lockAcquire do
    let tasks ← perform .loadTasks
    if tasks = 0 then do
      let _ ← perform .lockRelease
      pure 0
    else do
      let t ← perform .loadTasks
      let tasks ← perform .loadTasks
      let next ← loadTaskNext tasks
      let _ ← perform (.storeTasks next)
      let _ ← perform .lockRelease
      pure t

inductive QueueCall where
  | taskInit (task : ℕ)
  | idleTurn

def queueBody : QueueCall → QueueCode ℕ
  | .taskInit t => taskInitAppend t
  | .idleTurn => idleTaskEntryTurn

/-- An empty queue, with `task_lock` free. -/
def emptyQueue : QueueState where
  tasks := 0
  next _ := 0
  taskLock := 0

section Access

variable {α : Type} (state : QueueState) (task value : ℕ) (next : ℕ → QueueCode α)

@[simp]
theorem run_loadTasks : run execQueue (perform .loadTasks >>= next) state =
    run execQueue (next state.tasks) state := rfl

@[simp]
theorem run_storeTasks : run execQueue (perform (.storeTasks task) >>= next) state =
    run execQueue (next 0) { state with tasks := task } := rfl

@[simp]
theorem run_taskLockRelease : run execQueue (perform .lockRelease >>= next) state =
    run execQueue (next 0) { state with taskLock := 0 } := rfl

theorem run_loadTaskNext (htask : task ≠ 0) : run execQueue (loadTaskNext task >>= next) state =
    run execQueue (next (state.next task)) state := by
  rw [loadTaskNext, if_neg htask]
  rfl

theorem run_storeTaskNext (htask : task ≠ 0) :
    run execQueue (storeTaskNext task value >>= next) state =
      run execQueue (next 0) { state with next := Function.update state.next task value } := by
  rw [storeTaskNext, if_neg htask]
  rfl

theorem run_taskLockAcquire (body : QueueCode α) (hlock : state.taskLock = 0) :
    run execQueue (.await .lockAcquire body) state =
      run execQueue body { state with taskLock := 1 } := by
  simp [run, execQueue, hlock]

end Access

end SideHOS.Kernel
