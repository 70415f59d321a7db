import SideHOS.Sharing.Places
import SideHOS.Tasks.Exclusive

/-!
# Each ordinary task is executed once

The queue hands a task out once, and the processor that gets it keeps it in the variable `t` of
`idle_task_entry` until it runs on the stack of the task.  `executed` lists the tasks whose entry
functions a run executes.  As long as no processor takes the idle task of another, an ordinary task
that was handed out has been executed, or the one processor it was handed to is on the way to it,
and no task is executed twice.
-/

namespace SideHOS.Tasks

open Kernel Linked Sharing Sharing.Program Transition

variable {Proc : Type}

def executedIn (step : Taken (Machine Proc) (Event Proc)) : Option ℕ :=
  match step.label with
  | .proceed proc =>
      if (step.before.cpu proc).control = .body then some (step.before.cpu proc).stack else none
  | _ => none

def executed (taken : List (Taken (Machine Proc) (Event Proc))) : List ℕ :=
  taken.filterMap executedIn

theorem executed_concat (taken : List (Taken (Machine Proc) (Event Proc)))
    (step : Taken (Machine Proc) (Event Proc)) :
    executed (taken ++ [step]) = executed taken ++ (executedIn step).toList := by
  rw [executed, List.filterMap_append, executed]
  cases h : executedIn step <;> simp [h]

/-- The processor has been handed the task and has not executed it. -/
def Holding (work : Workload Proc) (machine : Machine Proc) (proc : Proc) (t : ℕ) : Prop :=
  match (machine.cpu proc).control with
  | .obtained | .saved | .switched => (machine.frame (work.idle proc)).t = t
  | .body => (machine.cpu proc).stack = t
  | _ => False

/-- The tasks executed so far, the tasks handed out and the tasks that processors hold agree. -/
structure ExecutedOnce (work : Workload Proc) (past : List ℕ) (machine : Machine Proc) : Prop where
  nodup : past.Nodup
  source : ∀ t ∈ past, t ∈ work.ordinary ∧ ∃ proc, Took machine.queue.returned proc t
  held : ∀ proc, ∀ t ∈ work.ordinary, Holding work machine proc t →
    Took machine.queue.returned proc t ∧ t ∉ past
  kept : ∀ proc, ∀ t ∈ work.ordinary, Took machine.queue.returned proc t →
    t ∈ past ∨ Holding work machine proc t

section Holding

variable {work : Workload Proc} {machine after : Machine Proc} {proc : Proc} {past : List ℕ}
  {t : ℕ}

theorem holding_congr (hcpu : after.cpu proc = machine.cpu proc)
    (hframe : after.frame (work.idle proc) = machine.frame (work.idle proc)) :
    Holding work after proc t ↔ Holding work machine proc t := by
  rw [Holding, hcpu, hframe, Holding]

theorem not_holding (hcontrol : (machine.cpu proc).control = .parked ∨
    (machine.cpu proc).control = .initialising ∨ (machine.cpu proc).control = .looping ∨
    (machine.cpu proc).control = .turning) : ¬ Holding work machine proc t := by
  rcases hcontrol with h | h | h | h <;> simp [Holding, h]

theorem took_cons {returned : List (Returned (Option Proc) QueueCall ℕ)} {call : QueueCall}
    {position : Option ℕ} {other : Proc} {task : ℕ} :
    Took (⟨some proc, call, position, task⟩ :: returned) other t ↔
      (call = .idleTurn ∧ other = proc ∧ t = task) ∨ Took returned other t := by
  constructor
  · rintro ⟨position', hentry⟩
    rcases List.mem_cons.mp hentry with heq | hentry
    · cases heq
      exact Or.inl ⟨rfl, rfl, rfl⟩
    · exact Or.inr ⟨position', hentry⟩
  · rintro (⟨rfl, rfl, rfl⟩ | htook)
    · exact ⟨position, List.mem_cons_self⟩
    · exact htook.mono (List.subset_cons_self _ _)

theorem ExecutedOnce.congr (h : ExecutedOnce work past machine)
    (htook : ∀ proc t, Took after.queue.returned proc t ↔ Took machine.queue.returned proc t)
    (hholding : ∀ proc, ∀ t ∈ work.ordinary,
      Holding work after proc t ↔ Holding work machine proc t) : ExecutedOnce work past after where
  nodup := h.nodup
  source t ht := by
    simp only [htook]
    exact h.source t ht
  held proc t ht hafter := by
    rw [htook]
    exact h.held proc t ht ((hholding proc t ht).mp hafter)
  kept proc t ht hafter := by
    rw [htook] at hafter
    exact (h.kept proc t ht hafter).imp_right (hholding proc t ht).mpr

variable [DecidableEq Proc]

/-- `ap_entry` and `task_exit` lead to the head of the loop. -/
theorem control_proceed_back (h : CpuHolds work machine proc)
    (hcontrol : (machine.cpu proc).control = .installed ∨ (machine.cpu proc).control = .exited) :
    ((proceed work machine proc).cpu proc).control = .looping := by
  unfold CpuHolds CpuInvariant at h
  rcases hcontrol with hcontrol | hcontrol <;> simp only [hcontrol] at h
  · obtain ⟨-, -, -, -, hcontext⟩ := h
    simp [proceed, hcontrol, restoreContext, resumeControl_fresh hcontext]
  · obtain ⟨-, ⟨hidle, -, -, hcontext, hframe⟩, -⟩ := h
    simp [proceed, hcontrol, hidle, restoreContext, resumeControl_kept hcontext hframe]

/-- `restore_context(t)` leads to the head of the loop, or to the body of an ordinary task on its
own stack. -/
theorem cpu_proceed_switched (h : CpuHolds work machine proc)
    (hordinary : ∀ t ∈ work.ordinary, machine.context t = ⟨t, .trampoline⟩)
    (hcontrol : (machine.cpu proc).control = .switched) :
    ((machine.frame (work.idle proc)).t = work.idle proc ∧
        ((proceed work machine proc).cpu proc).control = .looping) ∨
      (machine.frame (work.idle proc)).t ∈ work.ordinary ∧
        ((proceed work machine proc).cpu proc).control = .body ∧
        ((proceed work machine proc).cpu proc).stack = (machine.frame (work.idle proc)).t := by
  unfold CpuHolds CpuInvariant at h
  simp only [hcontrol] at h
  obtain ⟨-, -, hstack, -, howns, hcontext⟩ := h
  rcases howns with heq | ⟨hmem, -⟩
  · have hkept : resumeControl work (pushReturn machine proc) (work.idle proc) = .looping :=
      resumeControl_kept hcontext (by simp [pushReturn, hstack])
    exact Or.inl ⟨heq, by simp [proceed, hcontrol, hstack, heq, restoreContext, hkept]⟩
  · have hfresh : (pushReturn machine proc).context (machine.frame (work.idle proc)).t =
        ⟨(machine.frame (work.idle proc)).t, .trampoline⟩ := hordinary _ hmem
    refine Or.inr ⟨hmem, ?_, ?_⟩
    · simp [proceed, hcontrol, hstack, restoreContext, resumeControl_ordinary hmem hfresh]
    · simp [proceed, hcontrol, hstack, restoreContext, hfresh]

/-- Away from the entry functions a processor keeps the ordinary task it was handed. -/
theorem holding_proceed (h : CpuHolds work machine proc)
    (hordinary : ∀ t ∈ work.ordinary, machine.context t = ⟨t, .trampoline⟩)
    (hcontrol : (machine.cpu proc).control ≠ .body) (ht : t ∈ work.ordinary) :
    Holding work (proceed work machine proc) proc t ↔ Holding work machine proc t := by
  have hcpu := h
  unfold CpuHolds CpuInvariant at hcpu
  cases hbefore : (machine.cpu proc).control <;> simp only [hbefore] at hcpu
  case body => exact absurd hbefore hcontrol
  case parked | initialising | looping | turning => simp only [proceed, hbefore]
  case initialised | exiting => simp [Holding, proceed, hbefore]
  case installed =>
    simp [Holding, hbefore, control_proceed_back h (Or.inl hbefore)]
  case exited =>
    simp [Holding, hbefore, control_proceed_back h (Or.inr hbefore)]
  case obtained =>
    obtain ⟨-, ⟨-, -, hstack⟩, -⟩ := hcpu
    simp [Holding, proceed, hbefore, saveContext, hstack]
  case saved => simp [Holding, proceed, hbefore, setCurrentTask]
  case switched =>
    rcases cpu_proceed_switched h hordinary hbefore with ⟨heq, hafter⟩ | ⟨-, hafter, hstack⟩
    · have hne : work.idle proc ≠ t := by
        rintro rfl
        exact work.disjoint proc ht
      simp [Holding, hbefore, hafter, heq, hne]
    · simp [Holding, hbefore, hafter, hstack]

end Holding

section Steps

variable [DecidableEq Proc] {work : Workload Proc} {machine after start : Machine Proc}
  {proc other : Proc} {past : List ℕ} {t : ℕ}
  {taken : List (Taken (Machine Proc) (Event Proc))}

/-- A task that the queue is about to hand out has not been handed out before. -/
theorem QueueInvariant.not_took {queue : Config QueueAccess QueueState (Option Proc) QueueCall ℕ}
    {position : Option ℕ} (h : QueueInvariant work queue)
    (hthread : queue.thread (some proc) = .running .idleTurn position (.done t)) (ht : t ≠ 0) :
    ¬ Took queue.returned other t := by
  rintro ⟨position', hentry⟩
  have hplaced : Placed queue :=
    placed_of_reaches taskLockSemantics sectioned_queueBody (not_not.mpr rfl) h.reach
  obtain ⟨completed, answers, -, hreturned, hdone, -, hnodup, -⟩ := h.history
  obtain ⟨place, rfl, hcall, hanswer⟩ := hdone _ _ _ _ hthread
  obtain ⟨place', hplace', hcall', hanswer'⟩ := hreturned _ hentry
  obtain rfl := index_unique hnodup ht hcall hanswer hcall' hanswer'
  exact (hplaced.running _ _ _ _ hthread).2 _ hentry hplace'

def afterAnswer (machine : Machine Proc) (proc : Proc) (call : QueueCall) (position : Option ℕ)
    (task : ℕ) : Machine Proc :=
  { machine with
    queue :=
      { machine.queue with
        thread := Function.update machine.queue.thread (some proc) .idle
        returned := ⟨some proc, call, position, task⟩ :: machine.queue.returned }
    cpu := Function.update machine.cpu proc
      { machine.cpu proc with control := controlAfter task (machine.cpu proc).control }
    frame := Function.update machine.frame (machine.cpu proc).stack
      (frameAfter task (machine.cpu proc).control (machine.frame (machine.cpu proc).stack)) }

/-- A task that the queue hands out is held from then on. -/
theorem ExecutedOnce.taken_step {position : Option ℕ} {task : ℕ}
    (h : ExecutedOnce work past machine)
    (hinvariant : MachineInvariant work machine) (hcontrol : (machine.cpu proc).control = .turning)
    (hthread : machine.queue.thread (some proc) = .running .idleTurn position (.done task)) :
    ExecutedOnce work past (afterAnswer machine proc .idleTurn position task) := by
  have hcpu := hinvariant.cpu proc
  unfold CpuHolds CpuInvariant at hcpu
  simp only [hcontrol] at hcpu
  obtain ⟨-, -, -, hstack⟩ := hcpu
  have hbefore (t : ℕ) : ¬ Holding work machine proc t := not_holding (by simp [hcontrol])
  have hown (t : ℕ) (ht : t ∈ work.ordinary) :
      Holding work (afterAnswer machine proc .idleTurn position task) proc t ↔ t = task := by
    have hnull := (work.ordinary_address t ht).1
    by_cases htask : task = 0
    · simp [afterAnswer, Holding, hcontrol, controlAfter, htask, hnull]
    · simp [afterAnswer, Holding, hcontrol, controlAfter, htask, hstack, frameAfter, eq_comm]
  have hothers (other : Proc) (hne : other ≠ proc) (t : ℕ) :
      Holding work (afterAnswer machine proc .idleTurn position task) other t ↔
        Holding work machine other t := by
    apply holding_congr
    · exact Function.update_of_ne hne ..
    · simp only [afterAnswer, hstack]
      exact Function.update_of_ne (work.injective.ne hne) ..
  have hgrow {other : Proc} {t : ℕ} (htook : Took machine.queue.returned other t) :
      Took (afterAnswer machine proc .idleTurn position task).queue.returned other t :=
    htook.mono (List.subset_cons_self _ _)
  refine ⟨h.nodup, ?_, ?_, ?_⟩
  · intro t ht
    obtain ⟨hordinary, other, htook⟩ := h.source t ht
    exact ⟨hordinary, other, hgrow htook⟩
  · intro other t ht hholds
    by_cases hother : other = proc
    · subst hother
      obtain rfl := (hown t ht).mp hholds
      refine ⟨took_cons.mpr (Or.inl ⟨rfl, rfl, rfl⟩), fun hpast ↦ ?_⟩
      obtain ⟨-, taker, htook⟩ := h.source t hpast
      exact hinvariant.queue.not_took hthread (work.ordinary_address t ht).1 htook
    · obtain ⟨htook, hpast⟩ := h.held other t ht ((hothers other hother t).mp hholds)
      exact ⟨hgrow htook, hpast⟩
  · intro other t ht htook
    rcases took_cons.mp htook with ⟨-, rfl, rfl⟩ | htook
    · exact Or.inr ((hown t ht).mpr rfl)
    · rcases h.kept other t ht htook with hpast | hholds
      · exact Or.inl hpast
      · have hother : other ≠ proc := by
          rintro rfl
          exact hbefore t hholds
        exact Or.inr ((hothers other hother t).mpr hholds)

/-- The answer to `task_init` hands out nothing. -/
theorem ExecutedOnce.built_step {position : Option ℕ} {task built : ℕ}
    (h : ExecutedOnce work past machine) (hcontrol : (machine.cpu proc).control = .initialising) :
    ExecutedOnce work past (afterAnswer machine proc (.taskInit built) position task) := by
  apply h.congr
  · intro other t
    simp [afterAnswer, took_cons]
  · intro other t _
    by_cases hother : other = proc
    · subst hother
      simp [afterAnswer, Holding, hcontrol, controlAfter]
    · apply holding_congr
      · exact Function.update_of_ne hother ..
      · simp only [afterAnswer, hcontrol, frameAfter, Function.update_eq_self]

/-- An entry function is executed by the processor that holds the task. -/
theorem ExecutedOnce.body_step (h : ExecutedOnce work past machine)
    (hinvariant : MachineInvariant work machine) (hcontrol : (machine.cpu proc).control = .body) :
    ExecutedOnce work (past ++ [(machine.cpu proc).stack]) (proceed work machine proc) := by
  have hown := onlyOwn_proceed (hinvariant.cpu proc)
  have hcpu := hinvariant.cpu proc
  unfold CpuHolds CpuInvariant at hcpu
  simp only [hcontrol] at hcpu
  obtain ⟨-, haway, -⟩ := hcpu
  have hholding : Holding work machine proc (machine.cpu proc).stack := by
    simp [Holding, hcontrol]
  have hnew := (h.held proc _ haway.ordinary hholding).2
  have hafter (t : ℕ) : ¬ Holding work (proceed work machine proc) proc t := by
    simp [Holding, proceed, hcontrol]
  have hothers (other : Proc) (hne : other ≠ proc) (t : ℕ) :
      Holding work (proceed work machine proc) other t ↔ Holding work machine other t :=
    holding_congr (hown.cpu other hne) (hown.frame _ (work.injective.ne hne))
  have hqueue : (proceed work machine proc).queue = machine.queue := hown.queue
  refine ⟨?_, ?_, ?_, ?_⟩
  · rw [← List.concat_eq_append]
    exact h.nodup.concat hnew
  · rw [hqueue, List.forall_mem_append, List.forall_mem_singleton]
    exact ⟨h.source, haway.ordinary, proc, haway.took⟩
  · intro other t ht hholds
    have hne : other ≠ proc := by
      rintro rfl
      exact hafter t hholds
    obtain ⟨htook, hpast⟩ := h.held other t ht ((hothers other hne t).mp hholds)
    rw [hqueue, List.mem_append, List.mem_singleton]
    refine ⟨htook, not_or.mpr ⟨hpast, ?_⟩⟩
    rintro rfl
    exact hne (hinvariant.queue.took_unique htook haway.took (work.ordinary_address _ ht).1)
  · intro other t ht htook
    rw [hqueue] at htook
    rw [List.mem_append, List.mem_singleton, or_assoc]
    apply (h.kept other t ht htook).imp_right
    intro hholds
    by_cases hother : other = proc
    · subst hother
      left
      simpa [Holding, hcontrol, eq_comm] using hholds
    · exact Or.inr ((hothers other hother t).mpr hholds)

/-- Each step keeps the account. -/
theorem ExecutedOnce.step {event : Event Proc} (h : ExecutedOnce work past machine)
    (hinvariant : MachineInvariant work machine) (hstep : MachineStep work machine event after) :
    ExecutedOnce work (past ++ (executedIn ⟨machine, event, after⟩).toList) after := by
  cases hstep with
  | queue queue hinternal =>
    rw [executedIn, Option.toList_none, List.append_nil]
    exact h.congr (fun _ _ ↦ by rw [hinternal.returned]) fun _ _ _ ↦ Iff.rfl
  | call proc call control hcall hthread =>
    rw [executedIn, Option.toList_none, List.append_nil]
    refine h.congr (fun _ _ ↦ Iff.rfl) fun other t _ ↦ ?_
    by_cases hother : other = proc
    · subst hother
      cases hcontrol : (machine.cpu other).control <;> rw [hcontrol] at hcall <;> cases hcall <;>
        simp [Holding, hcontrol]
    · exact holding_congr (Function.update_of_ne hother ..) rfl
  | answer proc call position task hthread =>
    rw [executedIn, Option.toList_none, List.append_nil]
    rcases (hinvariant.cpu proc).call hthread with ⟨hcontrol, rfl⟩ | ⟨hcontrol, rfl⟩
    · exact h.built_step hcontrol
    · exact h.taken_step hinvariant hcontrol hthread
  | proceed proc =>
    have hown := onlyOwn_proceed (hinvariant.cpu proc)
    by_cases hcontrol : (machine.cpu proc).control = .body
    · simp only [executedIn, hcontrol, if_true, Option.toList_some]
      exact h.body_step hinvariant hcontrol
    · simp only [executedIn, hcontrol, if_false, Option.toList_none, List.append_nil]
      apply h.congr
      · intro other t
        rw [hown.queue]
      · intro other t ht
        by_cases hother : other = proc
        · subst hother
          exact holding_proceed (hinvariant.cpu other) hinvariant.ordinary hcontrol ht
        · exact holding_congr (hown.cpu other hother)
            (hown.frame _ (work.injective.ne hother))

/-- Nothing has been handed out before the processors are released. -/
theorem executedOnce_booted (h : Booted work machine) : ExecutedOnce work [] machine := by
  have hinvariant := machineInvariant_booted h
  refine ⟨List.nodup_nil, nofun, fun proc t _ hholds ↦ ?_, fun proc t _ htook ↦ ?_⟩
  · exact absurd hholds (not_holding (Or.inl (by rw [h.cpu proc])))
  · obtain ⟨completed, answers, hinitial, hreturned, -⟩ := hinvariant.queue.history
    obtain ⟨position, hentry⟩ := htook
    obtain ⟨place, -, hcall, -⟩ := hreturned _ hentry
    have hmem := hinitial.subset (List.mem_of_getElem? hcall)
    rw [h.order] at hmem
    simp at hmem

theorem executedOnce_of_run (hbooted : Booted work start)
    (hrun : Run (MachineStep work) start taken machine)
    (hown : ∀ step ∈ taken, NoForeignIdle work step) :
    MachineInvariant work machine ∧ ExecutedOnce work (executed taken) machine := by
  induction hrun with
  | nil => exact ⟨machineInvariant_booted hbooted, executedOnce_booted hbooted⟩
  | @snoc taken before event after earlier last ih =>
    obtain ⟨hinvariant, honce⟩ := ih fun step hstep ↦
      hown step (List.mem_append_left _ hstep)
    refine ⟨hinvariant.step last (hown _ (List.mem_append_right _ (List.mem_singleton_self _))),
      ?_⟩
    rw [executed_concat]
    exact honce.step hinvariant last

/-- As long as no processor is handed the idle task of another, the entry function of a task that
`kmain` built is executed at most once, after the task was handed out, and a task that was handed
out has been executed or is held by the one processor it was handed to. -/
theorem tasks_executed_once (hbooted : Booted work start)
    (hrun : Run (MachineStep work) start taken machine)
    (hown : ∀ step ∈ taken, NoForeignIdle work step) :
    (executed taken).Nodup ∧
      (∀ t ∈ executed taken, t ∈ work.ordinary ∧ ∃ proc, Took machine.queue.returned proc t) ∧
      ∀ t ∈ work.ordinary, ∀ proc, Took machine.queue.returned proc t →
        (∀ other, Took machine.queue.returned other t → other = proc) ∧
          (t ∈ executed taken ↔ ¬ Holding work machine proc t) := by
  obtain ⟨hinvariant, h⟩ := executedOnce_of_run hbooted hrun hown
  refine ⟨h.nodup, h.source, fun t ht proc htook ↦ ⟨fun other hother ↦ ?_, ?_⟩⟩
  · exact hinvariant.queue.took_unique hother htook (work.ordinary_address t ht).1
  · exact ⟨fun hpast hholds ↦ (h.held proc t ht hholds).2 hpast,
      fun hfree ↦ (h.kept proc t ht htook).resolve_right hfree⟩

end Steps

/-- The second processor starts, takes the task and executes it. -/
theorem tasks_executed_once_oneTask : ∃ taken machine,
    Run (MachineStep oneTaskWorkload) oneTaskStart taken machine ∧
      Took machine.queue.returned true 4096 ∧ (executed taken).Nodup ∧ 4096 ∈ executed taken := by
  obtain ⟨_, hbuild, hboth⟩ := @run_taskInitAppend _ _ 8192 queued_oneTaskStart (by decide)
    (by decide) (by decide)
  obtain ⟨_, htake, -⟩ := run_idleTaskEntryTurn_cons hboth
  have hstart : OwnRun oneTaskWorkload oneTaskStart oneTaskStart := ⟨[], .nil, nofun⟩
  have hlaunched := hstart.launch true rfl rfl hbuild
  have htaken := hlaunched.take true rfl rfl htake (by decide) (by decide)
  have hbody := htaken.enter true rfl rfl rfl (by decide)
  obtain ⟨taken, hrun, hown⟩ := hbody.exit true rfl rfl rfl
  obtain ⟨hnodup, -, hhanded⟩ := tasks_executed_once booted_oneTaskStart hrun hown
  refine ⟨taken, _, hrun, ⟨_, List.mem_cons_self⟩, hnodup, ?_⟩
  exact (hhanded 4096 (by decide) true ⟨_, List.mem_cons_self⟩).2.mpr id

end SideHOS.Tasks
