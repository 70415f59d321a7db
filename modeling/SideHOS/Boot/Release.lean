import SideHOS.Kernel.Startup
import SideHOS.Tasks.Exclusive

/-!
# From the release of a processor to its first task

`kmain` alone enqueues its tasks.  From then on an application processor that nobody interrupts
builds its idle task, takes the first task from the queue, and enters the entry function of it.
-/

namespace SideHOS.Boot

open Kernel Sharing Sharing.Program Tasks Transition

variable {Proc : Type} [DecidableEq Proc]

/-- `kmain` enqueues tasks one after another. -/
theorem reaches_enqueued (tasks : List ℕ) (hnodup : tasks.Nodup)
    (haddress : ∀ t ∈ tasks, t ≠ 0 ∧ t < 2 ^ 64) :
    ∃ queue : Config QueueAccess QueueState (Option Proc) QueueCall ℕ,
      Reaches execQueue queueBody emptyQueue queue ∧ (∀ proc, queue.thread proc = .idle) ∧
      queue.order = (tasks.map fun t ↦ (none, .taskInit t)) ∧ Queued queue.shared tasks := by
  induction tasks using List.reverseRecOn with
  | nil => exact ⟨initial emptyQueue, .refl, fun _ ↦ rfl, rfl, queued_emptyQueue⟩
  | append_singleton front last ih =>
    rw [List.nodup_append] at hnodup
    obtain ⟨queue, hreach, hidle, horder, hqueued⟩ :=
      ih hnodup.1 fun t ht ↦ haddress t (List.mem_append_left _ ht)
    have hfresh : last ∉ front := fun hmem ↦ hnodup.2.2 last hmem last (by simp) rfl
    obtain ⟨hnull, hword⟩ := haddress last (by simp)
    obtain ⟨after, hrun, hafter⟩ := run_taskInitAppend hqueued hnull hword hfresh
    have hsteps : Relation.ReflTransGen (Step execQueue queueBody) queue _ :=
      steps_alone queue none (hidle none) (sectioned_queueBody (.taskInit last)) hrun
    refine ⟨_, hreach.trans hsteps, hidle, ?_, hafter⟩
    rw [List.map_append, horder]
    rfl

/-- `kmain` comes to the release of the other processors with all its tasks in the queue. -/
theorem exists_booted (work : Workload Proc) (proc : Proc) :
    ∃ machine, Booted work machine ∧ Queued machine.queue.shared work.ordinary := by
  obtain ⟨queue, hreach, hidle, horder, hqueued⟩ :=
    @reaches_enqueued Proc _ work.ordinary work.nodup work.ordinary_address
  exact ⟨⟨queue, fun _ ↦ ⟨0, 0, 0, .parked⟩, fun t ↦ ⟨t, .trampoline⟩,
    fun t ↦ ⟨t, proc, .afterRestore⟩⟩,
    ⟨hreach, fun proc ↦ hidle proc, horder, fun _ ↦ rfl, fun _ _ ↦ rfl⟩, hqueued⟩

variable {work : Workload Proc} {machine : Machine Proc} {proc : Proc} {t : ℕ} {rest : List ℕ}

/-- A step of this processor before it runs a task of `kmain`. -/
def BeforeBody (proc : Proc) (step : Taken (Machine Proc) (Event Proc)) : Prop :=
  match step.label with
  | .queue => True
  | .call other | .answer other _ => other = proc
  | .proceed other => other = proc ∧ (step.before.cpu proc).control ≠ .body

omit [DecidableEq Proc] in
theorem beforeBody_use {taken later : List (Taken (Machine Proc) (Event Proc))}
    (htaken : ∀ step ∈ taken, BeforeBody proc step)
    (hlater : ∀ step ∈ later, step ∈ taken ∨ step.label = .queue ∨ step.label = .call proc ∨
      step.label = .answer proc t) : ∀ step ∈ later, BeforeBody proc step := by
  intro step hstep
  rcases hlater step hstep with hold | hlabel | hlabel | hlabel
  · exact htaken step hold
  all_goals simp only [BeforeBody, hlabel]

omit [DecidableEq Proc] in
theorem beforeBody_proceed {taken : List (Taken (Machine Proc) (Event Proc))}
    {after : Machine Proc} (htaken : ∀ step ∈ taken, BeforeBody proc step)
    (hcontrol : (machine.cpu proc).control ≠ .body) :
    ∀ step ∈ taken ++ [⟨machine, .proceed proc, after⟩], BeforeBody proc step := by
  intro step hstep
  rcases List.mem_append.mp hstep with hold | hnew
  · exact htaken step hold
  · rw [List.mem_singleton.mp hnew]
    exact ⟨rfl, hcontrol⟩

/-- The processor is in the loop of its idle task, and the tasks are in the queue. -/
structure AtLoop (work : Workload Proc) (machine : Machine Proc) (proc : Proc) : Prop where
  cpu : machine.cpu proc = ⟨work.idle proc, work.idle proc, work.idle proc, .looping⟩
  thread : machine.queue.thread (some proc) = .idle
  context : ∀ t ∈ work.ordinary, machine.context t = ⟨t, .trampoline⟩
  queued : Queued machine.queue.shared (work.ordinary ++ [work.idle proc])

/-- A released processor that nobody interrupts comes to its idle loop. -/
theorem exists_atLoop (hbooted : Booted work machine)
    (hqueued : Queued machine.queue.shared work.ordinary) (proc : Proc) :
    ∃ taken after, Run (MachineStep work) machine taken after ∧
      (∀ step ∈ taken, BeforeBody proc step) ∧ AtLoop work after proc := by
  obtain ⟨hnull, hword⟩ := work.idle_address proc
  obtain ⟨built, hinit, hbuilt⟩ := run_taskInitAppend hqueued hnull hword (work.disjoint proc)
  have hparked : nextCall work proc (machine.cpu proc).control =
      some (.taskInit (work.idle proc), .initialising) := by
    rw [hbooted.cpu proc]
    rfl
  obtain ⟨taken, hrun, hlabels⟩ := run_use proc _ .nil hparked (hbooted.idle (some proc)) hinit
  have hbefore := beforeBody_use (by simp) hlabels
  have hinstalled := hrun.snoc _ (MachineStep.proceed _ proc)
  have hlooping := hinstalled.snoc _ (MachineStep.proceed _ proc)
  refine ⟨_, _, hlooping, beforeBody_proceed (beforeBody_proceed hbefore ?_) ?_, ?_, ?_, ?_, ?_⟩
  · simp [afterUse, controlAfter]
  · simp [proceed, afterUse, controlAfter]
  · simp [proceed, afterUse, hbooted.cpu, controlAfter, restoreContext, prepareContext,
      resumeControl, work.disjoint]
  · simp [proceed, afterUse, usedQueue, controlAfter, restoreContext, hbooted.idle]
  · intro t ht
    have hne : t ≠ work.idle proc := fun heq ↦ work.disjoint proc (heq ▸ ht)
    simp [proceed, afterUse, controlAfter, restoreContext, prepareContext, hne,
      hbooted.context t ht]
  · simpa [proceed, afterUse, usedQueue, controlAfter, restoreContext] using hbuilt

/-- From its idle loop a processor that nobody interrupts comes to the entry function of the first
task in the queue. -/
theorem AtLoop.exists_body (h : AtLoop work machine proc) (hfirst : work.ordinary = t :: rest) :
    ∃ taken after, Run (MachineStep work) machine taken after ∧
      (∀ step ∈ taken, BeforeBody proc step) ∧ (after.cpu proc).control = .body ∧
      (after.cpu proc).stack = t := by
  have ht : t ∈ work.ordinary := hfirst ▸ List.mem_cons_self
  have hnull : t ≠ 0 := (work.ordinary_address t ht).1
  have hne : t ≠ work.idle proc := fun heq ↦ work.disjoint proc (heq ▸ ht)
  have hqueued := h.queued
  rw [hfirst, List.cons_append] at hqueued
  obtain ⟨left, hturn, -⟩ := run_idleTaskEntryTurn_cons hqueued
  have hcall : nextCall work proc (machine.cpu proc).control = some (.idleTurn, .turning) := by
    rw [h.cpu]
    rfl
  obtain ⟨taken, hrun, hlabels⟩ := run_use proc _ .nil hcall h.thread hturn
  have hbefore := beforeBody_use (by simp) hlabels
  have hsaved := hrun.snoc _ (MachineStep.proceed _ proc)
  have hswitched := hsaved.snoc _ (MachineStep.proceed _ proc)
  have hrestored := hswitched.snoc _ (MachineStep.proceed _ proc)
  have hcontext := h.context t ht
  refine ⟨_, _, hrestored, beforeBody_proceed (beforeBody_proceed
    (beforeBody_proceed hbefore ?_) ?_) ?_, ?_, ?_⟩
  · simp [afterUse, controlAfter, hnull]
  · simp [proceed, afterUse, controlAfter, hnull, saveContext]
  · simp [proceed, afterUse, controlAfter, hnull, saveContext, setCurrentTask, h.cpu]
  · simp [proceed, afterUse, controlAfter, hnull, saveContext, setCurrentTask, h.cpu, frameAfter,
      restoreContext, resumeControl, pushReturn, prepareContext, hne, hcontext, ht]
  · simp [proceed, afterUse, controlAfter, hnull, saveContext, setCurrentTask, h.cpu, frameAfter,
      restoreContext, pushReturn, prepareContext, hne, hcontext]

end SideHOS.Boot
