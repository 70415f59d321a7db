import SideHOS.Kernel.Creation
import SideHOS.Machine.Extent
import SideHOS.Tasks.Queue

/-!
# The queue in memory

The `next` fields of the queue are words of the records.  As long as the records of its tasks do not
overlap, memory represents the queue, and `task_init` appends a task in memory as it does in the
queue of the model on tasks, and writes nothing but `next` fields.
-/

namespace SideHOS.Tasks

open Kernel Linked Machine Machine.ByteMemory Machine.Word64 Sharing Sharing.Program

def nextTask (memory : Memory) (task : ℕ) : ℕ := load64 memory (task + taskNext)

abbrev nextField (task : ℕ) : Extent := ⟨task + taskNext, 8⟩

/-- Records in the address space whose `next` fields do not overlap. -/
structure Distinct (members : List ℕ) : Prop where
  word : ∀ task ∈ members, task + taskNext + 8 ≤ 2 ^ 64
  apart : ∀ task ∈ members, ∀ other ∈ members, task ≠ other →
    (nextField task).Apart (nextField other)

/-- Memory represents the queue of these tasks, and differs from what it was in `next` fields
only. -/
structure Stored (members : List ℕ) (before : KernelState) (queue : QueueState)
    (state : KernelState) : Prop where
  tasks : state.tasks = queue.tasks
  lock : state.taskLock = queue.taskLock
  next : ∀ task ∈ members, nextTask state.allocator.bytes task = queue.next task
  first_mem : queue.tasks = 0 ∨ queue.tasks ∈ members
  next_mem : ∀ task ∈ members, queue.next task = 0 ∨ queue.next task ∈ members
  context : state.allocator.context = before.allocator.context
  memoryLock : state.allocator.memoryLock = before.allocator.memoryLock
  outside : ∀ x, (∀ task ∈ members, ¬ (nextField task).Holds x) →
    state.allocator.bytes x = before.allocator.bytes x

section Stored

variable {members : List ℕ} {before state : KernelState} {queue : QueueState} {α : Type}
  {t : ℕ}

/-- What an access to a queue of these tasks may answer. -/
def MayAnswer (members : List ℕ) : QueueAccess → ℕ → Prop
  | .loadTasks, answer => answer = 0 ∨ answer ∈ members
  | .loadNext _, answer => answer = 0 ∨ answer ∈ members
  | _, _ => True

def Concerns (members : List ℕ) : QueueAccess → Prop
  | .storeTasks task => task ∈ members
  | .loadNext task => task ∈ members
  | .storeNext task value => task ∈ members ∧ (value = 0 ∨ value ∈ members)
  | _ => True

theorem uses_storeTaskNext {task value : ℕ} {rest : ℕ → QueueCode α} (htask : task ∈ members)
    (hvalue : value = 0 ∨ value ∈ members)
    (hrest : ∀ answer, Uses (MayAnswer members) (Concerns members) (rest answer)) :
    Uses (MayAnswer members) (Concerns members) (storeTaskNext task value >>= rest) := by
  rw [storeTaskNext]
  split
  · trivial
  · exact uses_access ⟨htask, hvalue⟩ fun answer _ ↦ hrest answer

/-- The walk to the last task stays in the queue, and so does what follows it. -/
theorem uses_lastTask {rest : ℕ → QueueCode α} {cur : ℕ} (fuel : ℕ)
    (hcur : cur = 0 ∨ cur ∈ members)
    (hrest : ∀ last ∈ members, Uses (MayAnswer members) (Concerns members) (rest last)) :
    Uses (MayAnswer members) (Concerns members) (lastTask fuel cur >>= rest) := by
  induction fuel generalizing cur with
  | zero => trivial
  | succ fuel ih =>
    by_cases hnull : cur = 0
    · rw [lastTask, loadTaskNext, if_pos hnull]
      trivial
    · have hmem := hcur.resolve_left hnull
      rw [lastTask, loadTaskNext, if_neg hnull]
      refine ⟨hmem, fun next _ ↦ ?_⟩
      change Uses _ _ ((if next = 0 then pure cur else perform (.loadNext cur) >>= lastTask fuel)
        >>= rest)
      by_cases hlast : next = 0
      · rw [if_pos hlast]
        exact hrest cur hmem
      · rw [if_neg hlast]
        exact ⟨hmem, fun later hlater ↦ ih hlater⟩

/-- `task_init` keeps to its task and those in the queue. -/
theorem uses_taskInitAppend (ht : t ∈ members) :
    Uses (MayAnswer members) (Concerns members) (taskInitAppend t) := by
  have hrelease : Uses (MayAnswer members) (Concerns members)
      (perform .lockRelease >>= fun _ ↦ (pure 0 : QueueCode ℕ)) :=
    uses_access trivial fun _ _ ↦ uses_pure 0
  refine ⟨trivial, uses_storeTaskNext ht (Or.inl rfl) fun _ ↦ ?_⟩
  apply uses_access trivial
  intro tasks htasks
  apply uses_ite
  · intro _
    exact uses_access ht fun _ _ ↦ hrelease
  · intro _
    apply uses_access trivial
    intro cur hcur
    apply uses_lastTask walkFuel hcur
    intro last hlast
    exact uses_storeTaskNext hlast (Or.inr ht) fun _ ↦ hrelease

theorem Distinct.add_eq (h : Distinct members) {task : ℕ} (htask : task ∈ members) :
    add task taskNext = task + taskNext :=
  add_of_lt (by have := h.word task htask; omega)

/-- A store to a `next` field changes the field of this task only. -/
theorem Distinct.nextTask_store (h : Distinct members) {memory : Memory} {task other value : ℕ}
    (htask : task ∈ members) (hother : other ∈ members) (hvalue : value < 2 ^ 64) :
    nextTask (store64 memory (task + taskNext) value) other =
      Function.update (nextTask memory) task value other := by
  by_cases heq : other = task
  · subst heq
    rw [Function.update_self, nextTask, load64_store64_same hvalue]
  · have hapart := h.apart other hother task htask heq
    simp only [Extent.Apart, Extent.stop] at hapart
    rw [Function.update_of_ne heq, nextTask, load64_store64_of_apart (by omega), nextTask]

/-- Every access to the queue does in memory what it does in the model. -/
theorem Distinct.simulates (h : Distinct members) (before : KernelState) :
    Simulates execQueue execKernel queueAccess (Stored members before) (MayAnswer members)
      (Concerns members) := by
  intro operation queue state hconcerns hstored
  have hword (task : ℕ) (htask : task = 0 ∨ task ∈ members) : task < 2 ^ 64 := by
    rcases htask with rfl | htask
    · norm_num
    · have := h.word task htask
      omega
  cases operation with
  | loadTasks => exact ⟨hstored.first_mem, hstored.tasks, hstored⟩
  | storeTasks task =>
    refine ⟨trivial, rfl, ?_⟩
    exact { hstored with tasks := rfl, first_mem := Or.inr hconcerns }
  | loadNext task =>
    have hnext : load64 state.allocator.bytes (add task taskNext) = queue.next task := by
      rw [h.add_eq hconcerns]
      exact hstored.next task hconcerns
    exact ⟨hstored.next_mem task hconcerns, hnext, hstored⟩
  | storeNext task value =>
    obtain ⟨htask, hvalue⟩ := hconcerns
    have hadd := h.add_eq htask
    refine ⟨trivial, rfl, ?_⟩
    simp only [queueAccess, execKernel, execQueue, exec, hadd]
    exact {
      tasks := hstored.tasks
      lock := hstored.lock
      next := fun other hother ↦ by
        simp only [h.nextTask_store htask hother (hword value hvalue), Function.update_apply,
          hstored.next other hother]
      first_mem := hstored.first_mem
      next_mem := fun other hother ↦ by
        simp only [Function.update_apply]
        split_ifs
        · exact hvalue
        · exact hstored.next_mem other hother
      context := hstored.context
      memoryLock := hstored.memoryLock
      outside := fun x hx ↦ by
        have hfield := hx task htask
        simp only [Extent.Holds, Extent.stop] at hfield
        rw [← hstored.outside x hx]
        exact store64_of_outside (by omega) }
  | lockAcquire =>
    simp only [queueAccess, execKernel, execQueue, hstored.lock]
    split_ifs with hfree
    · exact ⟨trivial, rfl, { hstored with lock := rfl }⟩
    · exact ⟨trivial, rfl, hstored⟩
  | lockRelease => exact ⟨trivial, rfl, { hstored with lock := rfl }⟩

/-- With the lock taken and `t->next` cleared, memory represents the queue. -/
theorem Distinct.stored_begun (h : Distinct (members ++ [t])) (hfresh : t ∉ members)
    (hchain : Chain 0 (nextTask state.allocator.bytes) state.tasks members) :
    Stored (members ++ [t]) state
      ⟨state.tasks, Function.update (nextTask state.allocator.bytes) t 0, 1⟩
      { state with
        allocator.bytes := store64 state.allocator.bytes (t + taskNext) 0
        taskLock := 1 } := by
  have ht : t ∈ members ++ [t] := by simp
  have hzero : 0 < 2 ^ 64 := by norm_num
  exact {
    tasks := rfl
    lock := rfl
    next := fun task htask ↦ h.nextTask_store ht htask hzero
    first_mem := (Chain.head_mem hchain).imp_right (List.mem_append_left _)
    next_mem := fun task htask ↦ by
      by_cases heq : task = t
      · subst heq
        exact Or.inl (Function.update_self ..)
      · have hmem : task ∈ members := by simpa [heq] using htask
        simp only [Function.update_of_ne heq]
        exact (Chain.next_mem hchain hmem).imp_right (List.mem_append_left _)
    context := rfl
    memoryLock := rfl
    outside := fun x hx ↦ by
      have hfield := hx t ht
      simp only [Extent.Holds, Extent.stop] at hfield
      exact store64_of_outside (by omega) }

/-- `task_init` appends its task to the list in memory, and changes nothing else but `next`
fields. -/
theorem run_taskInitAppend_stored (h : Distinct (members ++ [t])) (hnull : t ≠ 0)
    (hfresh : t ∉ members)
    (hchain : Chain 0 (nextTask state.allocator.bytes) state.tasks members)
    (hlock : state.taskLock = 0) :
    ∃ after, run execKernel (embed queueAccess (taskInitAppend t)) state = some (0, after) ∧
      Chain 0 (nextTask after.allocator.bytes) after.tasks (members ++ [t]) ∧
      after.taskLock = 0 ∧
      after.allocator = { state.allocator with bytes := after.allocator.bytes } ∧
      ∀ x, (∀ task ∈ members ++ [t], ¬ (nextField task).Holds x) →
        after.allocator.bytes x = state.allocator.bytes x := by
  have ht : t ∈ members ++ [t] := by simp
  have hmembers {task : ℕ} (htask : task ∈ members) : task ∈ members ++ [t] :=
    List.mem_append_left _ htask
  have hword (task : ℕ) (htask : task ∈ members ++ [t]) : task < 2 ^ 64 := by
    have := h.word task htask
    omega
  have hqueued : Queued ⟨state.tasks, nextTask state.allocator.bytes, state.taskLock⟩ members :=
    ⟨hchain, fun task htask ↦ hword task (hmembers htask), hlock⟩
  obtain ⟨queue, hrun, hafter⟩ := run_taskInitAppend hqueued hnull (hword t ht) hfresh
  have huses := (uses_taskInitAppend ht).2
  rw [taskInitAppend, run_taskLockAcquire _ _ hlock, run_storeTaskNext _ _ _ _ hnull] at hrun
  rw [storeTaskNext, if_neg hnull] at huses
  have hstored := h.stored_begun hfresh hchain
  obtain ⟨after, hrun', hstored'⟩ := (h.simulates state).run_embed (huses.2 0 trivial) hstored hrun
  refine ⟨after, ?_, ?_, ?_, AllocatorState.ext rfl hstored'.context hstored'.memoryLock,
    hstored'.outside⟩
  · have hacquire : execKernel .taskLockAcquire state = (1, { state with taskLock := 1 }) :=
      if_pos hlock
    rw [taskInitAppend, storeTaskNext, if_neg hnull, embed, run, queueAccess, hacquire]
    simp only [one_ne_zero, if_false]
    rw [← h.add_eq ht] at hrun'
    exact hrun'
  · rw [hstored'.tasks]
    exact hafter.chain.congr hstored'.next
  · exact hstored'.lock.trans hafter.lock

end Stored

end SideHOS.Tasks
