import SideHOS.Tasks.Ownership
import SideHOS.Transition.Run

/-!
# Exclusive execution of tasks

Every task that the queue hands out is handed to one processor, so that an ordinary task is run by
the processor that took it and by no other.  `task_init` also puts the idle task of each processor
into the queue.  As long as no processor takes the idle task of another, no task is owned by two
processors, so that their current tasks and their stacks differ, and `save_context` writes the
processor's own idle task.  A processor which does take the idle task of another makes it its own
current task as well.
-/

namespace SideHOS.Tasks

open Kernel Linked Sharing Sharing.Program Transition

variable {Proc : Type}

section Queue

variable [DecidableEq Proc] {work : Workload Proc}
  {queue : Config QueueAccess QueueState (Option Proc) QueueCall ℕ} {proc other : Proc}
  {t : ℕ}

/-- Each task goes into the queue once: the tasks of `kmain`, and idle tasks. -/
structure QueueInvariant (work : Workload Proc)
    (queue : Config QueueAccess QueueState (Option Proc) QueueCall ℕ) : Prop where
  reach : Reaches execQueue queueBody emptyQueue queue
  kmain : queue.thread none = .idle
  nodup : (enqueued queue.order).Nodup
  source : ∀ t ∈ enqueued queue.order, t ∈ work.ordinary ∨ ∃ proc, t = work.idle proc

theorem QueueInvariant.fresh (h : QueueInvariant work queue) : FreshTasks queue.order := by
  have haddress : ∀ t ∈ enqueued queue.order, t ≠ 0 ∧ t < 2 ^ 64 := by
    intro t ht
    rcases h.source t ht with hordinary | ⟨proc, rfl⟩
    · exact work.ordinary_address t hordinary
    · exact work.idle_address proc
  exact ⟨h.nodup, fun t ht ↦ (haddress t ht).1, fun t ht ↦ (haddress t ht).2⟩

theorem QueueInvariant.history (h : QueueInvariant work queue) :
    ∃ completed answers, QueueHistory queue completed answers := by
  obtain ⟨completed, answers, -, -, hserialized⟩ := serialized_of_reaches taskLockSemantics
    sectioned_queueBody (not_not.mpr rfl) h.reach
  exact ⟨completed, answers, QueueSerialized.history hserialized queued_emptyQueue h.fresh⟩

/-- A task that was taken had been put in. -/
theorem QueueInvariant.took_source (h : QueueInvariant work queue)
    (htook : Took queue.returned proc t) (ht : t ≠ 0) :
    t ∈ work.ordinary ∨ ∃ other, t = work.idle other := by
  obtain ⟨completed, answers, hinitial, hreturned, -, hdequeued, -⟩ := h.history
  obtain ⟨position, hentry⟩ := htook
  obtain ⟨index, -, hcall, hanswer⟩ := hreturned _ hentry
  obtain ⟨later, hlater⟩ := hinitial
  apply h.source
  rw [← hlater, enqueued_append]
  exact List.mem_append_left _ (hdequeued.subset (mem_dequeued hcall hanswer ht))

/-- No task is taken by two processors. -/
theorem QueueInvariant.took_unique (h : QueueInvariant work queue)
    (hfirst : Took queue.returned proc t) (hsecond : Took queue.returned other t) (ht : t ≠ 0) :
    proc = other := by
  obtain ⟨completed, answers, -, hreturned, -, -, hnodup, -⟩ := h.history
  obtain ⟨position, hentry⟩ := hfirst
  obtain ⟨position', hentry'⟩ := hsecond
  obtain ⟨index, -, hcall, hanswer⟩ := hreturned _ hentry
  obtain ⟨index', -, hcall', hanswer'⟩ := hreturned _ hentry'
  obtain rfl := index_unique hnodup ht hcall hanswer hcall' hanswer'
  rw [hcall] at hcall'
  exact Option.some.inj (Prod.mk.inj (Option.some.inj hcall')).1

theorem QueueInvariant.invoke (h : QueueInvariant work queue) (call : QueueCall)
    (hthread : queue.thread (some proc) = .idle) :
    QueueInvariant work
      { queue with
        thread := Function.update queue.thread (some proc)
          (.running call none (queueBody call)) } where
  reach := h.reach.tail (Step.invoke queue (some proc) call hthread)
  kmain := by
    have hne : (none : Option Proc) ≠ some proc := nofun
    simpa only [Function.update_of_ne hne] using h.kmain
  nodup := h.nodup
  source := h.source

theorem QueueInvariant.finish {call : QueueCall} {position : Option ℕ}
    (h : QueueInvariant work queue)
    (hthread : queue.thread (some proc) = .running call position (.done t)) :
    QueueInvariant work
      { queue with
        thread := Function.update queue.thread (some proc) .idle
        returned := ⟨some proc, call, position, t⟩ :: queue.returned } where
  reach := h.reach.tail (Step.finish queue (some proc) call position t hthread)
  kmain := by
    have hne : (none : Option Proc) ≠ some proc := nofun
    simpa only [Function.update_of_ne hne] using h.kmain
  nodup := h.nodup
  source := h.source

/-- A processor that leaves its spin loop had not been through it before. -/
theorem QueueInvariant.position_none {call : QueueCall} {position : Option ℕ}
    {operation : QueueAccess} {next : QueueCode ℕ} (h : QueueInvariant work queue)
    (hthread : queue.thread (some proc) = .running call position (.await operation next)) :
    position = none := by
  obtain ⟨completed, answers, -, -, hserialized⟩ := serialized_of_reaches taskLockSemantics
    sectioned_queueBody (not_not.mpr rfl) h.reach
  exact (serialized_await sectioned_queueBody hthread hserialized).2.1

end Queue

/-! ## All processors -/

section AllProcessors

variable [DecidableEq Proc] {work : Workload Proc} {machine after : Machine Proc} {proc : Proc}

/-- The idle task of the processor has not been put into the queue yet. -/
def Pending (work : Workload Proc) (machine : Machine Proc) (proc : Proc) : Prop :=
  (machine.cpu proc).control = .parked ∨
    ∃ rest, machine.queue.thread (some proc) = .running (.taskInit (work.idle proc)) none rest

/-- What is true as long as no processor takes the idle task of another. -/
structure MachineInvariant (work : Workload Proc) (machine : Machine Proc) : Prop where
  queue : QueueInvariant work machine.queue
  pending : ∀ proc, Pending work machine proc → work.idle proc ∉ enqueued machine.queue.order
  ordinary : ∀ t ∈ work.ordinary, machine.context t = ⟨t, .trampoline⟩
  cpu : ∀ proc, CpuHolds work machine proc

omit [DecidableEq Proc] in
/-- The uses of the queue that processors make. -/
theorem CpuInvariant.call {call : QueueCall} {position : Option ℕ} {rest : QueueCode ℕ}
    (h : CpuHolds work machine proc)
    (hthread : machine.queue.thread (some proc) = .running call position rest) :
    ((machine.cpu proc).control = .initialising ∧ call = .taskInit (work.idle proc)) ∨
      ((machine.cpu proc).control = .turning ∧ call = .idleTurn) := by
  unfold CpuHolds CpuInvariant at h
  cases hcontrol : (machine.cpu proc).control <;> simp only [hcontrol] at h
  case initialising =>
    obtain ⟨⟨position', rest', hrunning⟩, -⟩ := h
    rw [hthread] at hrunning
    exact Or.inl ⟨rfl, (Thread.running.inj hrunning).1⟩
  case turning =>
    obtain ⟨⟨position', rest', hrunning⟩, -⟩ := h
    rw [hthread] at hrunning
    exact Or.inr ⟨rfl, (Thread.running.inj hrunning).1⟩
  all_goals
    have hidle := h.1
    rw [hthread] at hidle
    cases hidle

omit [DecidableEq Proc] in
theorem CpuInvariant.idle_of_parked (h : CpuHolds work machine proc)
    (hparked : (machine.cpu proc).control = .parked) :
    machine.queue.thread (some proc) = .idle := by
  unfold CpuHolds CpuInvariant at h
  simp only [hparked] at h
  exact h.1

omit [DecidableEq Proc] in
theorem enqueued_concat (order : List (Option Proc × QueueCall)) (entry : Option Proc × QueueCall) :
    enqueued (order ++ [entry]) = enqueued order ++ enqueuedBy entry.2 := by
  simp [enqueued]

/-- A step inside a use of the queue. -/
theorem MachineInvariant.queue_step (h : MachineInvariant work machine)
    {queue : Config QueueAccess QueueState (Option Proc) QueueCall ℕ}
    (hstep : Internal execQueue queueBody machine.queue queue) :
    MachineInvariant work { machine with queue := queue } := by
  have hreach : Reaches execQueue queueBody emptyQueue queue := h.queue.reach.tail hstep.1
  have hkmain : queue.thread none = .idle := continues_idle (hstep.continues none) h.queue.kmain
  have hpending (proc : Proc) (hafter : Pending work { machine with queue := queue } proc) :
      Pending work machine proc := by
    refine hafter.imp_right ?_
    rintro ⟨rest, hrest⟩
    rcases hstep.continues (some proc) with hsame | ⟨call, position, before, later, next, hbefore,
      hnext, hnone⟩
    · exact ⟨rest, hsame ▸ hrest⟩
    · dsimp only at hrest
      rw [hnext] at hrest
      obtain ⟨rfl, rfl, -⟩ := Thread.running.inj hrest
      obtain rfl := hnone rfl
      exact ⟨before, hbefore⟩
  have hcpu (proc : Proc) : CpuHolds work { machine with queue := queue } proc :=
    (h.cpu proc).mono (hstep.continues (some proc)) (by simp [hstep.returned])
  rcases hstep.order with horder | ⟨caller, call, position, operation, next, position', hthread,
    hpassed, horder⟩
  · refine ⟨⟨hreach, hkmain, ?_, ?_⟩, fun proc hafter ↦ ?_, h.ordinary, hcpu⟩
    · rw [horder]
      exact h.queue.nodup
    · rw [horder]
      exact h.queue.source
    · change _ ∉ enqueued queue.order
      rw [horder]
      exact h.pending proc (hpending proc hafter)
  · cases caller with
    | none =>
      rw [h.queue.kmain] at hthread
      cases hthread
    | some caller =>
      obtain rfl := h.queue.position_none hthread
      have hentry : enqueued queue.order = enqueued machine.queue.order ++ enqueuedBy call := by
        rw [horder, enqueued_concat]
      have hown : ∀ t ∈ enqueuedBy call, t = work.idle caller ∧
          work.idle caller ∉ enqueued machine.queue.order := by
        rcases (h.cpu caller).call hthread with ⟨-, rfl⟩ | ⟨-, rfl⟩
        · intro t ht
          exact ⟨List.mem_singleton.mp ht, h.pending caller (Or.inr ⟨_, hthread⟩)⟩
        · intro t ht
          cases ht
      have hsingle : (enqueuedBy call).Nodup := by
        cases call <;> simp [enqueuedBy]
      refine ⟨⟨hreach, hkmain, ?_, ?_⟩, fun proc hafter ↦ ?_, h.ordinary, hcpu⟩
      · rw [hentry, List.nodup_append]
        refine ⟨h.queue.nodup, hsingle, ?_⟩
        rintro t ht t' ht' rfl
        obtain ⟨rfl, hnew⟩ := hown t ht'
        exact hnew ht
      · rw [hentry]
        intro t ht
        rcases List.mem_append.mp ht with ht | ht
        · exact h.queue.source t ht
        · exact Or.inr ⟨caller, (hown t ht).1⟩
      · change _ ∉ enqueued queue.order
        rw [hentry, List.mem_append]
        rintro (hold | hnew)
        · exact h.pending proc (hpending proc hafter) hold
        · obtain rfl := work.injective (hown _ hnew).1
          rcases hafter with hparked | ⟨rest, hrest⟩
          · rw [(h.cpu proc).idle_of_parked hparked] at hthread
            cases hthread
          · dsimp only at hrest
            rw [hpassed] at hrest
            obtain ⟨-, hposition, -⟩ := Thread.running.inj hrest
            cases hposition

/-- The start of a use of the queue. -/
theorem MachineInvariant.call_step (h : MachineInvariant work machine) {call : QueueCall}
    {control : Control} (hcall : nextCall work proc (machine.cpu proc).control =
      some (call, control)) (hthread : machine.queue.thread (some proc) = .idle) :
    MachineInvariant work
      { machine with
        queue :=
          { machine.queue with
            thread := Function.update machine.queue.thread (some proc)
              (.running call none (queueBody call)) }
        cpu := Function.update machine.cpu proc { machine.cpu proc with control := control }
        context := prepareContext call machine.context } := by
  have hcontext (t : ℕ) (ht : t ≠ work.idle proc) :
      prepareContext call machine.context t = machine.context t := by
    cases hcontrol : (machine.cpu proc).control <;> rw [hcontrol] at hcall <;> cases hcall
    · exact Function.update_of_ne ht ..
    · rfl
  refine ⟨h.queue.invoke call hthread, ?_, ?_, ?_⟩
  · intro other hpending
    by_cases hother : other = proc
    · subst hother
      cases hcontrol : (machine.cpu other).control <;> rw [hcontrol] at hcall <;> cases hcall
      · exact h.pending other (Or.inl hcontrol)
      · rcases hpending with hparked | ⟨rest, hrest⟩
        · simp at hparked
        · simp at hrest
    · refine h.pending other (hpending.imp ?_ ?_)
      · simp [Function.update_of_ne hother]
      · simp [Function.update_of_ne (Option.some_injective _ |>.ne hother)]
  · intro t ht
    have hne : t ≠ work.idle proc := by
      rintro rfl
      exact work.disjoint proc ht
    rw [← h.ordinary t ht]
    exact hcontext t hne
  · intro other
    by_cases hother : other = proc
    · subst hother
      have hcpu := h.cpu other
      unfold CpuHolds CpuInvariant at hcpu ⊢
      cases hcontrol : (machine.cpu other).control <;> rw [hcontrol] at hcall <;> cases hcall <;>
        simp only [hcontrol] at hcpu <;> simp only [Function.update_self]
      · exact ⟨⟨none, _, rfl⟩, hcpu.2.1, hcpu.2.2, Function.update_self ..⟩
      · exact ⟨⟨none, _, rfl⟩, hcpu.2.idleTask, hcpu.2.currentTask, hcpu.2.stack⟩
    · have hthread' : some other ≠ some proc := (Option.some_injective _).ne hother
      have hidle : work.idle other ≠ work.idle proc := work.injective.ne hother
      simp only [CpuHolds, Function.update_of_ne hother, Function.update_of_ne hthread',
        hcontext _ hidle]
      exact h.cpu other

/-- The end of a use of the queue, unless it hands out the idle task of another processor. -/
theorem MachineInvariant.answer_step (h : MachineInvariant work machine) {call : QueueCall}
    {position : Option ℕ} {task : ℕ}
    (hthread : machine.queue.thread (some proc) = .running call position (.done task))
    (hown : ∀ other, other ≠ proc → task ≠ work.idle other) :
    MachineInvariant work
      { machine with
        queue :=
          { machine.queue with
            thread := Function.update machine.queue.thread (some proc) .idle
            returned := ⟨some proc, call, position, task⟩ :: machine.queue.returned }
        cpu := Function.update machine.cpu proc
          { machine.cpu proc with control := controlAfter task (machine.cpu proc).control }
        frame := Function.update machine.frame (machine.cpu proc).stack
          (frameAfter task (machine.cpu proc).control
            (machine.frame (machine.cpu proc).stack)) } := by
  have hqueue := h.queue.finish hthread
  have hgrow : machine.queue.returned ⊆
      ⟨some proc, call, position, task⟩ :: machine.queue.returned := List.subset_cons_self _ _
  have hcall := (h.cpu proc).call hthread
  refine ⟨hqueue, ?_, h.ordinary, ?_⟩
  · intro other hpending
    by_cases hother : other = proc
    · subst hother
      rcases hpending with hparked | ⟨rest, hrest⟩
      · rcases hcall with ⟨hcontrol, -⟩ | ⟨hcontrol, -⟩
        · simp [hcontrol, controlAfter] at hparked
        · simp only [hcontrol, controlAfter, Function.update_self] at hparked
          split at hparked <;> cases hparked
      · simp at hrest
    · refine h.pending other (hpending.imp ?_ ?_)
      · simp [Function.update_of_ne hother]
      · simp [Function.update_of_ne (Option.some_injective _ |>.ne hother)]
  · intro other
    by_cases hother : other = proc
    · subst hother
      have hcpu := h.cpu other
      unfold CpuHolds CpuInvariant at hcpu ⊢
      rcases hcall with ⟨hcontrol, rfl⟩ | ⟨hcontrol, rfl⟩ <;> simp only [hcontrol] at hcpu <;>
        simp only [Function.update_self, hcontrol, controlAfter]
      · exact ⟨trivial, hcpu.2.currentTask, hcpu.2.stack, hcpu.2.context⟩
      · obtain ⟨-, hhome⟩ := hcpu
        by_cases htask : task = 0
        · simp only [htask, if_true]
          exact ⟨trivial, hhome.idleTask, hhome.currentTask, hhome.stack⟩
        · simp only [if_neg htask, hhome.stack, Function.update_self, frameAfter]
          refine ⟨trivial, ⟨hhome.idleTask, hhome.currentTask, rfl⟩, ?_⟩
          have htook : Took (⟨some other, .idleTurn, position, task⟩ :: machine.queue.returned)
              other task := ⟨position, List.mem_cons_self⟩
          rcases hqueue.took_source htook htask with hordinary | ⟨owner, rfl⟩
          · exact Or.inr ⟨hordinary, htook⟩
          · have howner : owner = other := by
              by_contra hne
              exact hown owner hne rfl
            exact Or.inl (by rw [howner])
    · have hframe : Function.update machine.frame (machine.cpu proc).stack
          (frameAfter task (machine.cpu proc).control (machine.frame (machine.cpu proc).stack))
            (work.idle other) = machine.frame (work.idle other) := by
        rcases hcall with ⟨hcontrol, -⟩ | ⟨hcontrol, -⟩
        · simp only [hcontrol, frameAfter, Function.update_eq_self]
        · have hcpu := h.cpu proc
          unfold CpuHolds CpuInvariant at hcpu
          simp only [hcontrol] at hcpu
          rw [hcpu.2.stack]
          exact Function.update_of_ne (work.injective.ne hother) ..
      have hthread' : some other ≠ some proc := (Option.some_injective _).ne hother
      simp only [CpuHolds, hframe, Function.update_of_ne hother, Function.update_of_ne hthread']
      exact (h.cpu other).mono (Or.inl rfl) hgrow

/-- A step away from the queue. -/
theorem MachineInvariant.proceed_step (h : MachineInvariant work machine) :
    MachineInvariant work (proceed work machine proc) := by
  have hown := onlyOwn_proceed (h.cpu proc)
  refine ⟨?_, ?_, ?_, ?_⟩
  · rw [hown.queue]
    exact h.queue
  · intro other hpending
    rw [hown.queue]
    apply h.pending other
    rw [Pending, hown.queue] at hpending
    refine hpending.imp_left fun hparked ↦ ?_
    by_cases hother : other = proc
    · subst hother
      exact parked_of_proceed hparked
    · rwa [hown.cpu other hother] at hparked
  · intro t ht
    rw [hown.context t fun heq ↦ work.disjoint proc (heq ▸ ht)]
    exact h.ordinary t ht
  · intro other
    by_cases hother : other = proc
    · subst hother
      exact cpuHolds_proceed h.ordinary (h.cpu other)
    · have hidle : work.idle other ≠ work.idle proc := work.injective.ne hother
      rw [CpuHolds, hown.queue, hown.cpu other hother, hown.context _ hidle, hown.frame _ hidle]
      exact h.cpu other

/-- Before any application processor is released. -/
theorem machineInvariant_booted (h : Booted work machine) : MachineInvariant work machine := by
  have hordinary : enqueued machine.queue.order = work.ordinary := by
    rw [h.order]
    simp [enqueued, enqueuedBy, List.flatMap_map]
  refine ⟨⟨h.reach, h.idle none, ?_, ?_⟩, ?_, h.context, ?_⟩
  · rw [hordinary]
    exact work.nodup
  · rw [hordinary]
    exact fun t ht ↦ Or.inl ht
  · intro proc _
    rw [hordinary]
    exact work.disjoint proc
  · intro proc
    rw [CpuHolds, h.cpu proc]
    exact ⟨h.idle (some proc), rfl, rfl⟩

/-- In this step no processor is handed the idle task of another. -/
def NoForeignIdle (work : Workload Proc)
    (taken : Transition.Taken (Machine Proc) (Event Proc)) : Prop :=
  ∀ proc task, taken.label = .answer proc task → ∀ other, other ≠ proc → task ≠ work.idle other

theorem MachineInvariant.step {event : Event Proc} (h : MachineInvariant work machine)
    (hstep : MachineStep work machine event after)
    (hown : NoForeignIdle work ⟨machine, event, after⟩) : MachineInvariant work after := by
  cases hstep with
  | queue queue hinternal => exact h.queue_step hinternal
  | call proc call control hcall hthread => exact h.call_step hcall hthread
  | answer proc call position task hthread => exact h.answer_step hthread (hown proc task rfl)
  | proceed proc => exact h.proceed_step

/-- No two processors have the same current task, none runs on the stack of another, and a
processor that comes to `save_context` has its own idle task as current task. -/
def Exclusive (work : Workload Proc) (machine : Machine Proc) : Prop :=
  (∀ first second, (machine.cpu first).currentTask ≠ 0 →
      (machine.cpu first).currentTask = (machine.cpu second).currentTask → first = second) ∧
    (∀ first second, (machine.cpu first).stack ≠ 0 →
      (machine.cpu first).stack = (machine.cpu second).stack → first = second) ∧
    ∀ proc, (machine.cpu proc).control = .obtained →
      (machine.cpu proc).currentTask = work.idle proc

theorem MachineInvariant.unique (h : MachineInvariant work machine) {t : ℕ} {first second : Proc}
    (hfirst : Owns work machine.queue.returned first t)
    (hsecond : Owns work machine.queue.returned second t) : first = second := by
  apply hfirst.unique hsecond
  intro ht htook htook'
  exact h.queue.took_unique htook htook' (work.ordinary_address t ht).1

theorem MachineInvariant.exclusive (h : MachineInvariant work machine) :
    Exclusive work machine := by
  refine ⟨fun first second hne heq ↦ ?_, fun first second hne heq ↦ ?_, fun proc hcontrol ↦ ?_⟩
  · apply h.unique ((h.cpu first).owns_currentTask hne)
    rw [heq] at hne ⊢
    exact (h.cpu second).owns_currentTask hne
  · apply h.unique ((h.cpu first).owns_stack hne)
    rw [heq] at hne ⊢
    exact (h.cpu second).owns_stack hne
  · have hcpu := h.cpu proc
    unfold CpuHolds CpuInvariant at hcpu
    simp only [hcontrol] at hcpu
    exact hcpu.2.1.currentTask

end AllProcessors

/-! ## What one processor does while nobody else is at the queue -/

section Runs

variable [DecidableEq Proc] {work : Workload Proc} {start machine : Machine Proc}
  {taken : List (Transition.Taken (Machine Proc) (Event Proc))}

/-- Steps inside uses of the queue extend a run. -/
theorem run_queue {queue : Config QueueAccess QueueState (Option Proc) QueueCall ℕ}
    (hrun : Run (MachineStep work) start taken machine)
    (hsteps : Relation.ReflTransGen (Internal execQueue queueBody) machine.queue queue) :
    ∃ later, Run (MachineStep work) start later { machine with queue := queue } ∧
      ∀ t ∈ later, t ∈ taken ∨ t.label = .queue := by
  induction hsteps with
  | refl => exact ⟨taken, hrun, fun t ht ↦ Or.inl ht⟩
  | tail _ hstep ih =>
    obtain ⟨later, hlater, hlabel⟩ := ih
    refine ⟨_, hlater.snoc _ (MachineStep.queue _ _ hstep), fun t ht ↦ ?_⟩
    rcases List.mem_append.mp ht with ht | ht
    · exact hlabel t ht
    · rw [List.mem_singleton.mp ht]
      exact Or.inr rfl

/-- The queue after a processor has used it while nobody else did. -/
def usedQueue (machine : Machine Proc) (proc : Proc) (call : QueueCall) (task : ℕ)
    (state : QueueState) : Config QueueAccess QueueState (Option Proc) QueueCall ℕ :=
  { machine.queue with
    shared := state
    order := machine.queue.order ++ [(some proc, call)]
    returned := ⟨some proc, call, some machine.queue.order.length, task⟩ ::
      machine.queue.returned }

/-- The machine after a processor has used the queue while nobody else did. -/
def afterUse (machine : Machine Proc) (proc : Proc) (call : QueueCall) (control : Control)
    (task : ℕ) (state : QueueState) : Machine Proc where
  queue := usedQueue machine proc call task state
  cpu := Function.update machine.cpu proc
    { machine.cpu proc with control := controlAfter task control }
  context := prepareContext call machine.context
  frame := Function.update machine.frame (machine.cpu proc).stack
    (frameAfter task control (machine.frame (machine.cpu proc).stack))

/-- A processor uses the queue while nobody else does. -/
theorem run_use (proc : Proc) (call : QueueCall) {control : Control} {task : ℕ}
    {state : QueueState} (hrun : Run (MachineStep work) start taken machine)
    (hcall : nextCall work proc (machine.cpu proc).control = some (call, control))
    (hthread : machine.queue.thread (some proc) = .idle)
    (hexec : run execQueue (queueBody call) machine.queue.shared = some (task, state)) :
    ∃ later, Run (MachineStep work) start later
        (afterUse machine proc call control task state) ∧
      ∀ t ∈ later, t ∈ taken ∨ t.label = .queue ∨ t.label = .call proc ∨
        t.label = .answer proc task := by
  have hinvoked := hrun.snoc _ (MachineStep.call machine proc call control hcall hthread)
  have hinternal : Relation.ReflTransGen (Internal execQueue queueBody) _ _ := internal_alone
    { machine.queue with
      thread := Function.update machine.queue.thread (some proc)
        (.running call none (queueBody call)) }
    (Function.update_self ..) (sectioned_queueBody call) hexec
  obtain ⟨later, hlater, hlabel⟩ := run_queue hinvoked hinternal
  have hidle : Function.update machine.queue.thread (some proc) .idle = machine.queue.thread := by
    rw [← hthread, Function.update_eq_self]
  have hanswered := hlater.snoc _ (MachineStep.answer _ proc call
    (some machine.queue.order.length) task (Function.update_self ..))
  simp only [Function.update_idem, Function.update_self, hidle] at hanswered
  refine ⟨_, hanswered, fun t ht ↦ ?_⟩
  rcases List.mem_append.mp ht with ht | ht
  · rcases hlabel t ht with ht | hqueue
    · rcases List.mem_append.mp ht with ht | ht
      · exact Or.inl ht
      · rw [List.mem_singleton.mp ht]
        exact Or.inr (Or.inr (Or.inl rfl))
    · exact Or.inr (Or.inl hqueue)
  · rw [List.mem_singleton.mp ht]
    exact Or.inr (Or.inr (Or.inr rfl))

/-- A run in which no processor is handed the idle task of another. -/
def OwnRun (work : Workload Proc) (start machine : Machine Proc) : Prop :=
  ∃ taken, Run (MachineStep work) start taken machine ∧ ∀ t ∈ taken, NoForeignIdle work t

theorem OwnRun.proceed (h : OwnRun work start machine) (proc : Proc) :
    OwnRun work start (proceed work machine proc) := by
  obtain ⟨taken, hrun, hown⟩ := h
  refine ⟨_, hrun.snoc _ (MachineStep.proceed machine proc), fun t ht ↦ ?_⟩
  rcases List.mem_append.mp ht with ht | ht
  · exact hown t ht
  · rw [List.mem_singleton.mp ht]
    exact nofun

theorem OwnRun.use (h : OwnRun work start machine) (proc : Proc) (call : QueueCall)
    {control : Control} {task : ℕ} {state : QueueState}
    (hcall : nextCall work proc (machine.cpu proc).control = some (call, control))
    (hthread : machine.queue.thread (some proc) = .idle)
    (hexec : run execQueue (queueBody call) machine.queue.shared = some (task, state))
    (hown : ∀ other, other ≠ proc → task ≠ work.idle other) :
    OwnRun work start (afterUse machine proc call control task state) := by
  obtain ⟨taken, hrun, htaken⟩ := h
  obtain ⟨later, hlater, hlabel⟩ := run_use proc call hrun hcall hthread hexec
  refine ⟨later, hlater, fun t ht ↦ ?_⟩
  rcases hlabel t ht with ht | hqueue | hinvoked | hanswer
  · exact htaken t ht
  · exact fun other answer heq ↦ nomatch hqueue.symm.trans heq
  · exact fun other answer heq ↦ nomatch hinvoked.symm.trans heq
  · intro other answer heq
    cases hanswer.symm.trans heq
    exact hown

/-- A released processor comes to its idle loop. -/
theorem OwnRun.launch (h : OwnRun work start machine) (proc : Proc) {state : QueueState}
    (hcpu : machine.cpu proc = ⟨0, 0, 0, .parked⟩)
    (hthread : machine.queue.thread (some proc) = .idle)
    (hexec : run execQueue (taskInitAppend (work.idle proc)) machine.queue.shared =
      some (0, state)) :
    OwnRun work start
      { machine with
        queue := usedQueue machine proc (.taskInit (work.idle proc)) 0 state
        cpu := Function.update machine.cpu proc
          ⟨work.idle proc, work.idle proc, work.idle proc, .looping⟩
        context := Function.update machine.context (work.idle proc)
          ⟨work.idle proc, .trampoline⟩ } := by
  have hcall : nextCall work proc (machine.cpu proc).control =
      some (.taskInit (work.idle proc), .initialising) := by
    rw [hcpu]
    rfl
  have hlooping := ((h.use proc _ hcall hthread hexec
    fun other _ hidle ↦ (work.idle_address other).1 hidle.symm).proceed proc).proceed proc
  simpa [Kernel.proceed, afterUse, usedQueue, hcpu, controlAfter, frameAfter, restoreContext,
    prepareContext, resumeControl, work.disjoint] using hlooping

/-- From its idle loop a processor takes a task and makes it its current task. -/
theorem OwnRun.take (h : OwnRun work start machine) (proc : Proc) {idle current stack t : ℕ}
    {state : QueueState} (hcpu : machine.cpu proc = ⟨idle, current, stack, .looping⟩)
    (hthread : machine.queue.thread (some proc) = .idle)
    (hexec : run execQueue idleTaskEntryTurn machine.queue.shared = some (t, state)) (ht : t ≠ 0)
    (hown : ∀ other, other ≠ proc → t ≠ work.idle other) :
    OwnRun work start
      { queue := usedQueue machine proc .idleTurn t state
        cpu := Function.update machine.cpu proc ⟨idle, t, stack, .switched⟩
        context := Function.update machine.context current ⟨stack, .returnAddress⟩
        frame := Function.update machine.frame stack ⟨t, proc, .afterSave⟩ } := by
  have hcall : nextCall work proc (machine.cpu proc).control = some (.idleTurn, .turning) := by
    rw [hcpu]
    rfl
  have hswitched := ((h.use proc _ hcall hthread hexec hown).proceed proc).proceed proc
  simpa [Kernel.proceed, afterUse, usedQueue, hcpu, controlAfter, ht, frameAfter, prepareContext,
    saveContext, setCurrentTask] using hswitched

/-- A processor enters the ordinary task that it has taken. -/
theorem OwnRun.enter (h : OwnRun work start machine) (proc : Proc) {idle t stack : ℕ}
    (hcpu : machine.cpu proc = ⟨idle, t, stack, .switched⟩) (hframe : (machine.frame stack).t = t)
    (hcontext : machine.context t = ⟨t, .trampoline⟩) (ht : t ∈ work.ordinary) :
    OwnRun work start
      { machine with
        cpu := Function.update machine.cpu proc ⟨idle, t, t, .body⟩
        frame := Function.update machine.frame stack
          { machine.frame stack with returnAddress := .afterRestore } } := by
  simpa [Kernel.proceed, hcpu, hframe, restoreContext, pushReturn, hcontext, resumeControl, ht]
    using h.proceed proc

/-- A processor returns from the body of a task to its idle loop. -/
theorem OwnRun.exit (h : OwnRun work start machine) (proc : Proc) {idle t bodyStack stack : ℕ}
    (hcpu : machine.cpu proc = ⟨idle, t, bodyStack, .body⟩)
    (hcontext : machine.context idle = ⟨stack, .returnAddress⟩)
    (hframe : (machine.frame stack).returnAddress = .afterRestore) :
    OwnRun work start
      { machine with cpu := Function.update machine.cpu proc ⟨idle, idle, stack, .looping⟩ } := by
  have hlooping := ((h.proceed proc).proceed proc).proceed proc
  simpa [Kernel.proceed, hcpu, hframe, restoreContext, hcontext, resumeControl] using hlooping

/-- As long as no processor is handed the idle task of another, no two processors run the same
task, its context or its stack, and `save_context` writes the processor's own idle task. -/
theorem tasks_exclusive {start : Machine Proc}
    {taken : List (Transition.Taken (Machine Proc) (Event Proc))} (hbooted : Booted work start)
    (hrun : Run (MachineStep work) start taken machine)
    (hown : ∀ t ∈ taken, NoForeignIdle work t) : Exclusive work machine :=
  (hrun.invariant (MachineInvariant work) (NoForeignIdle work) (machineInvariant_booted hbooted)
    (fun _ _ _ h hstep hcondition ↦ h.step hstep hcondition) hown).exclusive

end Runs

/-- Two application processors and one ordinary task. -/
def oneTaskWorkload : Workload Bool where
  ordinary := [4096]
  idle proc := if proc then 8192 else 12288
  nodup := by decide
  injective := by decide
  disjoint := by decide
  ordinary_address := by decide
  idle_address := by decide

/-- `kmain` has enqueued the task, and no application processor has been released. -/
def oneTaskStart : Machine Bool where
  queue :=
    { shared :=
        { emptyQueue with tasks := 4096, next := Function.update emptyQueue.next 4096 0 }
      thread _ := .idle
      order := [(none, .taskInit 4096)]
      returned := [⟨none, .taskInit 4096, some 0, 0⟩] }
  cpu _ := ⟨0, 0, 0, .parked⟩
  context _ := ⟨4096, .trampoline⟩
  frame _ := ⟨0, true, .afterRestore⟩

theorem booted_oneTaskStart : Booted oneTaskWorkload oneTaskStart where
  reach := steps_alone (initial emptyQueue) none rfl (sectioned_queueBody (.taskInit 4096)) rfl
  idle _ := rfl
  order := rfl
  cpu _ := rfl
  context t ht := by
    rw [List.mem_singleton.mp ht]
    rfl

theorem queued_oneTaskStart : Queued oneTaskStart.queue.shared [4096] :=
  ⟨⟨rfl, by decide, rfl⟩, by decide, rfl⟩

/-- Both processors start.  The second runs the ordinary task while the first runs its own idle
task; then the second returns to its idle loop and takes its own idle task, too. -/
theorem tasks_exclusive_oneTask : ∃ running final : Machine Bool,
    (running.cpu true).control = .body ∧ (running.cpu true).currentTask = 4096 ∧
    (running.cpu false).currentTask = 12288 ∧ Exclusive oneTaskWorkload running ∧
    (final.cpu true).currentTask = 8192 ∧ (final.cpu false).currentTask = 12288 ∧
    Exclusive oneTaskWorkload final := by
  obtain ⟨_, hfirst, hqueued⟩ := @run_taskInitAppend _ _ 12288 queued_oneTaskStart (by decide)
    (by decide) (by decide)
  obtain ⟨_, hsecond, hqueued⟩ := @run_taskInitAppend _ _ 8192 hqueued (by decide) (by decide)
    (by decide)
  obtain ⟨_, hturn, hqueued⟩ := run_idleTaskEntryTurn_cons hqueued
  obtain ⟨_, hidle, hqueued⟩ := run_idleTaskEntryTurn_cons hqueued
  obtain ⟨_, hown, -⟩ := run_idleTaskEntryTurn_cons hqueued
  have hstart : OwnRun oneTaskWorkload oneTaskStart oneTaskStart := ⟨[], .nil, by simp⟩
  have hlaunched := (hstart.launch false rfl rfl hfirst).launch true rfl rfl hsecond
  have htaken := hlaunched.take true rfl rfl hturn (by decide) (by decide)
  have hbody := htaken.enter true rfl rfl rfl (by decide)
  have hrunning := hbody.take false rfl rfl hidle (by decide) (by decide)
  have hreturned := hrunning.exit true rfl rfl rfl
  have hfinal := hreturned.take true rfl rfl hown (by decide) (by decide)
  obtain ⟨_, hrun, hrunOwn⟩ := hrunning
  obtain ⟨_, hlater, hlaterOwn⟩ := hfinal
  exact ⟨_, _, rfl, rfl, rfl, tasks_exclusive booted_oneTaskStart hrun hrunOwn, rfl, rfl,
    tasks_exclusive booted_oneTaskStart hlater hlaterOwn⟩

/-- Two application processors and no ordinary task. -/
def idleWorkload : Workload Bool where
  ordinary := []
  idle proc := if proc then 4096 else 8192
  nodup := List.nodup_nil
  injective := by decide
  disjoint := by simp
  ordinary_address := by simp
  idle_address := by decide

/-- Nothing is enqueued, and no application processor has been released. -/
def idleStart : Machine Bool where
  queue := initial emptyQueue
  cpu _ := ⟨0, 0, 0, .parked⟩
  context _ := ⟨0, .trampoline⟩
  frame _ := ⟨0, true, .afterRestore⟩

theorem booted_idleStart : Booted idleWorkload idleStart :=
  ⟨.refl, fun _ ↦ rfl, rfl, fun _ ↦ rfl, by simp [idleWorkload]⟩

/-- The second processor starts and runs its own idle task; then the first processor starts, and
the second takes the idle task of the first and makes it its current task. -/
theorem current_task_shared : ∃ taken machine, Booted idleWorkload idleStart ∧
    Run (MachineStep idleWorkload) idleStart taken machine ∧
    (machine.cpu true).currentTask = 4096 ∧ (machine.cpu false).currentTask = 4096 ∧
    ¬ Exclusive idleWorkload machine := by
  have hstart : Run (MachineStep idleWorkload) idleStart [] idleStart := Run.nil
  obtain ⟨_, hbuilt, -⟩ := run_use false (.taskInit 8192) hstart rfl rfl rfl
  have hinstalled := hbuilt.snoc _ (MachineStep.proceed _ false)
  have hlooping := hinstalled.snoc _ (MachineStep.proceed _ false)
  obtain ⟨_, hown, -⟩ := run_use false .idleTurn hlooping rfl rfl rfl
  have hsaved := hown.snoc _ (MachineStep.proceed _ false)
  have hswitched := hsaved.snoc _ (MachineStep.proceed _ false)
  have hrestored := hswitched.snoc _ (MachineStep.proceed _ false)
  obtain ⟨_, hfirst, -⟩ := run_use true (.taskInit 4096) hrestored rfl rfl rfl
  have hstarted := hfirst.snoc _ (MachineStep.proceed _ true)
  obtain ⟨_, hforeign, -⟩ := run_use false .idleTurn hstarted rfl rfl rfl
  have hkept := hforeign.snoc _ (MachineStep.proceed _ false)
  have hshared := hkept.snoc _ (MachineStep.proceed _ false)
  refine ⟨_, _, booted_idleStart, hshared, ?_, ?_, fun hexclusive ↦ ?_⟩
  · decide +kernel
  · decide +kernel
  · exact absurd (hexclusive.1 true false (by decide +kernel) (by decide +kernel)) (by decide)

end SideHOS.Tasks
