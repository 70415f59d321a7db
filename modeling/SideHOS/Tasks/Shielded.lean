import SideHOS.Tasks.Completion

/-!
# The tasks of `kmain` shield the processors

`task_init` puts the idle tasks of the processors into the queue as well, behind the tasks of
`kmain`.  In every run, with no condition on what processors are handed, no processor has been
handed an idle task as long as a task of `kmain` is in the list, so that up to then no two
processors ran the same task.
-/

namespace SideHOS.Tasks

open Kernel Linked Sharing Sharing.Program Transition

variable {Proc : Type} [DecidableEq Proc]

section Shielded

variable {work : Workload Proc} {start machine after : Machine Proc} {proc other : Proc} {t : ℕ}

omit [DecidableEq Proc] in
theorem dequeued_mono {completed later : List (Option Proc × QueueCall)}
    {answers laterAnswers : List ℕ} (hlength : completed.length = answers.length)
    (hcompleted : completed <+: later) (hanswers : answers <+: laterAnswers) :
    dequeued completed answers ⊆ dequeued later laterAnswers := by
  obtain ⟨entries, rfl⟩ := hcompleted
  obtain ⟨results, rfl⟩ := hanswers
  rw [dequeued, dequeued, List.zip_append hlength, List.flatMap_append]
  exact List.subset_append_left _ _

theorem queue_proceed : (proceed work machine proc).queue = machine.queue := by
  unfold proceed
  dsimp only
  split <;> rfl

theorem control_proceed (hother : other ≠ proc) :
    ((proceed work machine proc).cpu other).control = (machine.cpu other).control := by
  unfold proceed
  dsimp only
  split <;> simp only [restoreContext, saveContext, pushReturn, setCurrentTask,
    Function.update_of_ne hother]
  by_cases hlocal : other = (machine.frame (machine.cpu proc).stack).cpuLocal
  · rw [hlocal, Function.update_self]
  · rw [Function.update_of_ne hlocal]

theorem parked_of_controlAfter {answer : ℕ} {control : Control}
    (h : controlAfter answer control = .parked) : control = .parked := by
  cases control with
  | parked => rfl
  | turning =>
    simp only [controlAfter] at h
    split at h <;> cases h
  | _ => cases h

/-- What is true of the queue in every run: a processor builds its own idle task, and only once. -/
structure Orderly (work : Workload Proc) (machine : Machine Proc) : Prop where
  queue : QueueInvariant work machine.queue
  parked : ∀ proc, (machine.cpu proc).control = .parked → machine.queue.thread (some proc) = .idle
  building : ∀ proc task position rest,
    machine.queue.thread (some proc) = .running (.taskInit task) position rest →
      task = work.idle proc
  pending : ∀ proc, Pending work machine proc → work.idle proc ∉ enqueued machine.queue.order

theorem Orderly.queue_step (h : Orderly work machine)
    {queue : Config QueueAccess QueueState (Option Proc) QueueCall ℕ}
    (hstep : Internal execQueue queueBody machine.queue queue) :
    Orderly work { machine with queue := queue } := by
  have hreach : Reaches execQueue queueBody emptyQueue queue := h.queue.reach.tail hstep.1
  have hkmain : queue.thread none = .idle := continues_idle (hstep.continues none) h.queue.kmain
  have hparked (proc : Proc) (hcontrol : (machine.cpu proc).control = .parked) :
      queue.thread (some proc) = .idle :=
    continues_idle (hstep.continues (some proc)) (h.parked proc hcontrol)
  have hpending (proc : Proc) (hafter : Pending work { machine with queue := queue } proc) :
      Pending work machine proc := by
    refine hafter.imp_right ?_
    rintro ⟨rest, hrest⟩
    rcases hstep.continues (some proc) with hsame | ⟨call, position, before, later, next, hbefore,
      hnext, hnone⟩
    · exact ⟨rest, hsame ▸ hrest⟩
    · dsimp only at hrest
      rw [hnext] at hrest
      obtain ⟨rfl, rfl, -⟩ := Thread.running.inj hrest
      obtain rfl := hnone rfl
      exact ⟨before, hbefore⟩
  have hbuilding (proc : Proc) (task : ℕ) (position : Option ℕ) (rest : QueueCode ℕ)
      (hthread : queue.thread (some proc) = .running (.taskInit task) position rest) :
      task = work.idle proc := by
    rcases hstep.continues (some proc) with hsame | ⟨call, position', before, later, next, hbefore,
      hnext, -⟩
    · exact h.building proc task position rest (hsame ▸ hthread)
    · rw [hnext] at hthread
      obtain ⟨rfl, -, -⟩ := Thread.running.inj hthread
      exact h.building _ _ _ _ hbefore
  rcases hstep.order with horder | ⟨caller, call, position, operation, next, position', hthread,
    hpassed, horder⟩
  · refine ⟨⟨hreach, hkmain, ?_, ?_⟩, hparked, hbuilding, fun proc hafter ↦ ?_⟩
    · rw [horder]
      exact h.queue.nodup
    · rw [horder]
      exact h.queue.source
    · change _ ∉ enqueued queue.order
      rw [horder]
      exact h.pending proc (hpending proc hafter)
  · cases caller with
    | none =>
      rw [h.queue.kmain] at hthread
      cases hthread
    | some caller =>
      obtain rfl := h.queue.position_none hthread
      cases call with
      | idleTurn =>
        have hentry : enqueued queue.order = enqueued machine.queue.order := by
          rw [horder, enqueued_concat]
          exact List.append_nil _
        refine ⟨⟨hreach, hkmain, ?_, ?_⟩, hparked, hbuilding, fun proc hafter ↦ ?_⟩
        · rw [hentry]
          exact h.queue.nodup
        · rw [hentry]
          exact h.queue.source
        · change _ ∉ enqueued queue.order
          rw [hentry]
          exact h.pending proc (hpending proc hafter)
      | taskInit task =>
        obtain rfl := h.building _ _ _ _ hthread
        have hentry : enqueued queue.order =
            enqueued machine.queue.order ++ [work.idle caller] := by
          rw [horder, enqueued_concat]
          rfl
        have hnew := h.pending caller (Or.inr ⟨_, hthread⟩)
        refine ⟨⟨hreach, hkmain, ?_, ?_⟩, hparked, hbuilding, fun proc hafter ↦ ?_⟩
        · rw [hentry, ← List.concat_eq_append]
          exact h.queue.nodup.concat hnew
        · rw [hentry, List.forall_mem_append, List.forall_mem_singleton]
          exact ⟨h.queue.source, Or.inr ⟨caller, rfl⟩⟩
        · change _ ∉ enqueued queue.order
          rw [hentry, List.mem_append, List.mem_singleton]
          rintro (hold | heq)
          · exact h.pending proc (hpending proc hafter) hold
          · obtain rfl := work.injective heq
            rcases hafter with hcontrol | ⟨rest, hrest⟩
            · rw [h.parked proc hcontrol] at hthread
              cases hthread
            · dsimp only at hrest
              rw [hpassed] at hrest
              cases (Thread.running.inj hrest).2.1

/-- Every step keeps the queue orderly. -/
theorem Orderly.step {event : Event Proc} (h : Orderly work machine)
    (hstep : MachineStep work machine event after) : Orderly work after := by
  cases hstep with
  | queue queue hinternal => exact h.queue_step hinternal
  | call proc call control hcall hthread =>
    have hcontrol : control ≠ .parked ∧ ∀ task, call = .taskInit task →
        task = work.idle proc ∧ (machine.cpu proc).control = .parked := by
      cases hbefore : (machine.cpu proc).control <;> rw [hbefore] at hcall <;> cases hcall
      · exact ⟨nofun, fun task heq ↦ ⟨(QueueCall.taskInit.inj heq).symm, rfl⟩⟩
      · exact ⟨nofun, nofun⟩
    refine ⟨h.queue.invoke call hthread, ?_, ?_, ?_⟩
    · intro other hother
      have hne : other ≠ proc := by
        rintro rfl
        simp only [Function.update_self] at hother
        exact hcontrol.1 hother
      dsimp only at hother ⊢
      rw [Function.update_of_ne hne] at hother
      rw [Function.update_of_ne ((Option.some_injective _).ne hne)]
      exact h.parked other hother
    · intro other task position rest hother
      by_cases hne : other = proc
      · subst hne
        dsimp only at hother
        rw [Function.update_self] at hother
        exact (hcontrol.2 task (Thread.running.inj hother).1).1
      · dsimp only at hother
        rw [Function.update_of_ne ((Option.some_injective _).ne hne)] at hother
        exact h.building other task position rest hother
    · intro other hother
      apply h.pending other
      by_cases hne : other = proc
      · subst hne
        rcases hother with hparked | ⟨rest, hrest⟩
        · simp only [Function.update_self] at hparked
          exact absurd hparked hcontrol.1
        · dsimp only at hrest
          rw [Function.update_self] at hrest
          exact Or.inl (hcontrol.2 _ (Thread.running.inj hrest).1).2
      · refine hother.imp ?_ ?_
        · simp [Function.update_of_ne hne]
        · simp [Function.update_of_ne ((Option.some_injective _).ne hne)]
  | answer proc call position task hthread =>
    have hanswered {other : Proc}
        (hother : Pending work (afterAnswer machine proc call position task) other) :
        other ≠ proc ∧ Pending work machine other := by
      have hne : other ≠ proc := by
        rintro rfl
        rcases hother with hparked | ⟨rest, hrest⟩
        · simp only [afterAnswer, Function.update_self] at hparked
          rw [h.parked other (parked_of_controlAfter hparked)] at hthread
          cases hthread
        · simp [afterAnswer] at hrest
      refine ⟨hne, hother.imp ?_ ?_⟩
      · simp [afterAnswer, Function.update_of_ne hne]
      · simp [afterAnswer, Function.update_of_ne ((Option.some_injective _).ne hne)]
    refine ⟨h.queue.finish hthread, ?_, ?_, fun other hother ↦ h.pending other (hanswered hother).2⟩
    · intro other hother
      by_cases hne : other = proc
      · subst hne
        exact Function.update_self ..
      · dsimp only at hother ⊢
        rw [Function.update_of_ne hne] at hother
        rw [Function.update_of_ne ((Option.some_injective _).ne hne)]
        exact h.parked other hother
    · intro other task' position' rest hother
      by_cases hne : other = proc
      · subst hne
        simp at hother
      · dsimp only at hother
        rw [Function.update_of_ne ((Option.some_injective _).ne hne)] at hother
        exact h.building other task' position' rest hother
  | proceed proc =>
    have hparked (other : Proc)
        (hother : ((proceed work machine proc).cpu other).control = .parked) :
        (machine.cpu other).control = .parked := by
      by_cases hne : other = proc
      · subst hne
        exact parked_of_proceed hother
      · rwa [control_proceed hne] at hother
    refine ⟨?_, ?_, ?_, ?_⟩
    · rw [queue_proceed]
      exact h.queue
    · intro other hother
      rw [queue_proceed]
      exact h.parked other (hparked other hother)
    · rw [queue_proceed]
      exact h.building
    · intro other hother
      rw [Pending, queue_proceed] at hother
      rw [queue_proceed]
      exact h.pending other (hother.imp_left (hparked other))

theorem orderly_booted (h : Booted work machine) : Orderly work machine := by
  have hinvariant := machineInvariant_booted h
  refine ⟨hinvariant.queue, fun proc _ ↦ h.idle (some proc), ?_, hinvariant.pending⟩
  intro proc task position rest hthread
  rw [h.idle] at hthread
  cases hthread

/-- A step of the machine is a step of the queue, or leaves the queue alone. -/
theorem queue_moves {event : Event Proc} (h : MachineStep work machine event after) :
    Step execQueue queueBody machine.queue after.queue ∨ after.queue = machine.queue := by
  cases h with
  | queue queue hinternal => exact Or.inl hinternal.1
  | call proc call control hcall hthread => exact Or.inl (Step.invoke _ _ _ hthread)
  | answer proc call position task hthread => exact Or.inl (Step.finish _ _ _ _ _ hthread)
  | proceed proc => exact Or.inr queue_proceed

/-- All tasks of `kmain` have been taken out of the queue. -/
def Emptied (work : Workload Proc)
    (queue : Config QueueAccess QueueState (Option Proc) QueueCall ℕ) : Prop :=
  ∃ completed answers, QueueSerialized emptyQueue completed answers queue ∧
    work.ordinary ⊆ dequeued completed answers

theorem Emptied.step {event : Event Proc} (h : Emptied work machine.queue)
    (hstep : MachineStep work machine event after) : Emptied work after.queue := by
  obtain ⟨completed, answers, hserialized, hall⟩ := h
  rcases queue_moves hstep with hqueue | heq
  · have hlength := hserialized.choose_spec.2.1
    obtain ⟨later, laterAnswers, hcompleted, hanswers, hafter⟩ :=
      serialized_step taskLockSemantics sectioned_queueBody hqueue hserialized
    exact ⟨later, laterAnswers, hafter,
      List.Subset.trans hall (dequeued_mono hlength hcompleted hanswers)⟩
  · rw [heq]
    exact ⟨completed, answers, hserialized, hall⟩

/-- When an idle task is handed out, the tasks of `kmain` have been taken out before. -/
theorem Supplied.emptied (h : Supplied work machine) {call : QueueCall} {position : Option ℕ}
    (hthread : machine.queue.thread (some proc) = .running call position
      (.done (work.idle other))) : Emptied work machine.queue := by
  obtain ⟨completed, answers, -, -, hserialized⟩ := serialized_of_reaches taskLockSemantics
    sectioned_queueBody (not_not.mpr rfl) h.invariant.queue.reach
  refine ⟨completed, answers, hserialized, ?_⟩
  obtain ⟨hinitial, -, -, hdequeued, -, -⟩ :=
    QueueSerialized.history hserialized queued_emptyQueue h.invariant.queue.fresh
  obtain ⟨place, -, hcall, hanswer⟩ := QueueSerialized.recorded_of_done hserialized hthread
  have hmem : work.idle other ∈ dequeued completed answers := by
    cases call with
    | taskInit task =>
      obtain ⟨state, hrun, -⟩ := hserialized
      obtain ⟨before, later, hbody⟩ := runAll_getElem? hrun hcall hanswer
      exact absurd ((yields_taskInitAppend task).of_run hbody) (work.idle_address other).1
    | idleTurn => exact mem_dequeued hcall hanswer (work.idle_address other).1
  have hentered : dequeued completed answers <+: enqueued machine.queue.order := by
    obtain ⟨later, hlater⟩ := hinitial
    rw [← hlater, enqueued_append]
    exact hdequeued.trans (List.prefix_append _ _)
  rcases List.prefix_or_prefix_of_prefix hentered h.supply.first with hshort | hshort
  · exact absurd (hshort.subset hmem) (work.disjoint other)
  · exact hshort.subset

variable {taken : List (Taken (Machine Proc) (Event Proc))}

def NoIdle (work : Workload Proc) (step : Taken (Machine Proc) (Event Proc)) : Prop :=
  ∀ proc task, step.label = .answer proc task → ∀ other, task ≠ work.idle other

omit [DecidableEq Proc] in
theorem NoIdle.noForeignIdle {step : Taken (Machine Proc) (Event Proc)} (h : NoIdle work step) :
    NoForeignIdle work step :=
  fun proc task hlabel other _ ↦ h proc task hlabel other

/-- In every run no processor is handed an idle task before the tasks of `kmain` have been taken
out. -/
theorem orderly_of_run (hbooted : Booted work start)
    (hrun : Run (MachineStep work) start taken machine) :
    Orderly work machine ∧
      ((∀ step ∈ taken, NoIdle work step) ∨ Emptied work machine.queue) := by
  induction hrun with
  | nil => exact ⟨orderly_booted hbooted, Or.inl nofun⟩
  | @snoc taken before event after earlier last ih =>
    obtain ⟨horderly, hown | hemptied⟩ := ih
    · refine ⟨horderly.step last, ?_⟩
      by_cases hlast : NoIdle work ⟨before, event, after⟩
      · exact Or.inl (List.forall_mem_append.mpr ⟨hown, List.forall_mem_singleton.mpr hlast⟩)
      · right
        have hsupplied := (supplied_booted hbooted).run
          ⟨taken, earlier, fun step hstep ↦ (hown step hstep).noForeignIdle⟩
        apply Emptied.step _ last
        simp only [NoIdle, not_forall, not_not] at hlast
        obtain ⟨proc, task, rfl, other, rfl⟩ := hlast
        cases last with
        | answer proc call position task hthread => exact hsupplied.emptied hthread
    · exact ⟨horderly.step last, Or.inr (hemptied.step last)⟩

/-- Nothing in the list has been taken out. -/
theorem Emptied.not_mem {cells : List ℕ} (h : Emptied work machine.queue)
    (horderly : Orderly work machine) (hfree : machine.queue.shared.taskLock = 0)
    (hchain : Chain 0 machine.queue.shared.next machine.queue.shared.tasks cells)
    (ht : t ∈ work.ordinary) : t ∉ cells := by
  intro hcell
  obtain ⟨completed, answers, hserialized, hall⟩ := h
  obtain ⟨-, -, -, -, -, hlist⟩ :=
    QueueSerialized.history hserialized queued_emptyQueue horderly.queue.fresh
  obtain ⟨-, left, hleft, hsplit⟩ := hlist hfree
  obtain rfl := Chain.unique hchain hleft
  have hnodup := horderly.queue.nodup
  rw [hsplit] at hnodup
  exact (List.nodup_append.mp hnodup).2.2 t (hall ht) t hcell rfl

/-- In every run, as long as a task of `kmain` is in the list, no processor has been handed an idle
task, and at no time have two processors run the same task or on the same stack. -/
theorem exclusive_while_queued {cells : List ℕ} (hbooted : Booted work start)
    (hrun : Run (MachineStep work) start taken machine)
    (hfree : machine.queue.shared.taskLock = 0)
    (hchain : Chain 0 machine.queue.shared.next machine.queue.shared.tasks cells)
    (ht : t ∈ work.ordinary) (hcell : t ∈ cells) :
    Exclusive work machine ∧
      ∀ step ∈ taken, NoIdle work step ∧ Exclusive work step.before := by
  obtain ⟨horderly, hnone | hemptied⟩ := orderly_of_run hbooted hrun
  · have hown : ∀ step ∈ taken, NoForeignIdle work step :=
      fun step hstep ↦ (hnone step hstep).noForeignIdle
    refine ⟨tasks_exclusive hbooted hrun hown, fun step hstep ↦ ⟨hnone step hstep, ?_⟩⟩
    obtain ⟨earlier, hearlier, -, hsubset⟩ := hrun.of_mem hstep
    exact tasks_exclusive hbooted hearlier fun prior hprior ↦ hown prior (hsubset prior hprior)
  · exact absurd hcell (hemptied.not_mem horderly hfree hchain ht)

end Shielded

/-- The first processor has built its idle task, and the task of `kmain` is still in the list. -/
theorem exclusive_while_queued_oneTask : ∃ taken machine,
    Run (MachineStep oneTaskWorkload) oneTaskStart taken machine ∧
      (machine.cpu true).control = .initialised ∧ Exclusive oneTaskWorkload machine := by
  obtain ⟨built, hbuild, hboth⟩ := @run_taskInitAppend _ _ 8192 queued_oneTaskStart (by decide)
    (by decide) (by decide)
  have hstart : Run (MachineStep oneTaskWorkload) oneTaskStart [] oneTaskStart := .nil
  obtain ⟨taken, hrun, -⟩ := run_use true (.taskInit 8192) hstart rfl rfl hbuild
  refine ⟨taken, _, hrun, rfl, ?_⟩
  exact (exclusive_while_queued booted_oneTaskStart hrun hboth.lock hboth.chain
    (by decide : 4096 ∈ oneTaskWorkload.ordinary) (by decide)).1

end SideHOS.Tasks
