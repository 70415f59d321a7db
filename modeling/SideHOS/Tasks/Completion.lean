import SideHOS.Tasks.Handout

/-!
# All tasks can be executed

From every machine that is reached without handing a processor the idle task of another, there is
a continuation in which all tasks of `kmain` are executed.  The holder of `task_lock` can leave its
critical section, a processor that was handed a task comes back to the head of its loop, any
processor can take what is left in the queue, and the tasks of `kmain` leave it before any idle
task.
-/

namespace SideHOS.Tasks

open Kernel Linked Sharing Sharing.Program Transition

variable {Proc : Type} [DecidableEq Proc]

section Machines

variable {work : Workload Proc} {start machine after final : Machine Proc} {proc : Proc} {t : ℕ}

theorem OwnRun.refl : OwnRun work machine machine := ⟨[], .nil, nofun⟩

theorem OwnRun.trans (h : OwnRun work start machine) (hlater : OwnRun work machine final) :
    OwnRun work start final := by
  obtain ⟨taken, hrun, hown⟩ := h
  obtain ⟨later, hcontinued, hlaterOwn⟩ := hlater
  exact ⟨taken ++ later, hrun.append hcontinued, List.forall_mem_append.mpr ⟨hown, hlaterOwn⟩⟩

theorem OwnRun.step {event : Event Proc} (h : OwnRun work start machine)
    (hstep : MachineStep work machine event after)
    (hown : NoForeignIdle work ⟨machine, event, after⟩) : OwnRun work start after := by
  obtain ⟨taken, hrun, htaken⟩ := h
  refine ⟨_, hrun.snoc event hstep, List.forall_mem_append.mpr ⟨htaken, ?_⟩⟩
  exact List.forall_mem_singleton.mpr hown

theorem OwnRun.inside (h : OwnRun work start machine)
    {queue : Config QueueAccess QueueState (Option Proc) QueueCall ℕ}
    (hsteps : Relation.ReflTransGen (Internal execQueue queueBody) machine.queue queue) :
    OwnRun work start { machine with queue := queue } := by
  induction hsteps with
  | refl => exact h
  | tail _ hstep ih => exact ih.step (MachineStep.queue _ _ hstep) nofun

theorem OwnRun.answer (h : OwnRun work start machine) {call : QueueCall} {position : Option ℕ}
    {task : ℕ}
    (hthread : machine.queue.thread (some proc) = .running call position (.done task))
    (hown : ∀ other, other ≠ proc → task ≠ work.idle other) :
    OwnRun work start (afterAnswer machine proc call position task) := by
  refine h.step (MachineStep.answer machine proc call position task hthread) ?_
  intro taker answer heq
  cases heq
  exact hown

/-- What holds of the processors, and that the tasks of `kmain` came first into the queue. -/
structure Supplied (work : Workload Proc) (machine : Machine Proc) : Prop where
  invariant : MachineInvariant work machine
  supply : Supply work machine.queue.order

theorem supplied_booted (h : Booted work machine) : Supplied work machine := by
  refine ⟨machineInvariant_booted h, ?_, ?_⟩
  · rw [h.order]
    simp [enqueued, enqueuedBy, List.flatMap_map]
  · rw [h.order]
    simp

theorem Supplied.step {event : Event Proc} (h : Supplied work machine)
    (hstep : MachineStep work machine event after)
    (hown : NoForeignIdle work ⟨machine, event, after⟩) : Supplied work after := by
  refine ⟨h.invariant.step hstep hown, ?_⟩
  cases hstep with
  | queue queue hinternal =>
    rcases hinternal.order with horder | ⟨caller, call, position, operation, next, position',
      hthread, -, horder⟩
    · rw [horder]
      exact h.supply
    · cases caller with
      | none =>
        rw [h.invariant.queue.kmain] at hthread
        cases hthread
      | some caller =>
        rw [horder]
        exact h.supply.concat call
  | call proc call control hcall hthread => exact h.supply
  | answer proc call position task hthread => exact h.supply
  | proceed proc =>
    rw [(onlyOwn_proceed (h.invariant.cpu proc)).queue]
    exact h.supply

theorem Supplied.run (h : Supplied work machine) (hrun : OwnRun work machine final) :
    Supplied work final := by
  obtain ⟨taken, hrun, hown⟩ := hrun
  exact hrun.invariant (Supplied work) (NoForeignIdle work) h
    (fun _ _ _ hbefore hstep hcondition ↦ hbefore.step hstep hcondition) hown

theorem returned_step {event : Event Proc} (hinvariant : MachineInvariant work machine)
    (hstep : MachineStep work machine event after) :
    machine.queue.returned ⊆ after.queue.returned := by
  cases hstep with
  | queue queue hinternal =>
    dsimp only
    rw [hinternal.returned]
    exact List.Subset.refl _
  | call proc call control hcall hthread => exact List.Subset.refl _
  | answer proc call position task hthread => exact List.subset_cons_self _ _
  | proceed proc =>
    rw [(onlyOwn_proceed (hinvariant.cpu proc)).queue]
    exact List.Subset.refl _

/-- What was handed out stays handed out. -/
theorem Supplied.returned (h : Supplied work machine) (hrun : OwnRun work machine final) :
    machine.queue.returned ⊆ final.queue.returned := by
  obtain ⟨taken, hrun, hown⟩ := hrun
  have hboth := hrun.invariant
    (fun after ↦ Supplied work after ∧ machine.queue.returned ⊆ after.queue.returned)
    (NoForeignIdle work) ⟨h, List.Subset.refl _⟩
    (fun _ _ _ hbefore hstep hcondition ↦ ⟨hbefore.1.step hstep hcondition,
      List.Subset.trans hbefore.2 (returned_step hbefore.1.invariant hstep)⟩) hown
  exact hboth.2

/-! ## Coming back to the loop -/

/-- The number of steps to the head of the loop at most, for a processor away from the queue. -/
def distance : Control → ℕ
  | .looping => 0
  | .installed | .exited => 1
  | .initialised | .exiting => 2
  | .body => 3
  | .switched => 4
  | .saved => 5
  | .obtained => 6
  | .parked | .initialising | .turning => 7

/-- Away from the queue each step leads nearer to the head of the loop. -/
theorem distance_proceed (h : MachineInvariant work machine)
    (hpositive : 0 < distance (machine.cpu proc).control)
    (haway : distance (machine.cpu proc).control ≤ 6) :
    distance ((proceed work machine proc).cpu proc).control <
      distance (machine.cpu proc).control := by
  have hcpu := h.cpu proc
  cases hcontrol : (machine.cpu proc).control <;> simp only [hcontrol] at hpositive haway
  case parked | initialising | turning | looping => simp [distance] at hpositive haway
  case initialised | body | exiting | saved => simp [proceed, hcontrol, distance]
  case obtained => simp [proceed, hcontrol, saveContext, distance]
  case installed =>
    rw [control_proceed_back hcpu (Or.inl hcontrol)]
    decide
  case exited =>
    rw [control_proceed_back hcpu (Or.inr hcontrol)]
    decide
  case switched =>
    rcases cpu_proceed_switched hcpu h.ordinary hcontrol with ⟨-, hafter⟩ | ⟨-, hafter, -⟩ <;>
      rw [hafter] <;> decide

theorem eq_looping_of_distance {control : Control} (h : distance control = 0) :
    control = .looping := by
  cases control <;> cases h
  rfl

/-- A processor away from the queue comes back to the head of its loop. -/
theorem MachineInvariant.exists_looping (h : MachineInvariant work machine)
    (haway : distance (machine.cpu proc).control ≤ 6) :
    ∃ final, OwnRun work machine final ∧ final.queue = machine.queue ∧
      (final.cpu proc).control = .looping := by
  induction hlength : distance (machine.cpu proc).control using Nat.strong_induction_on
    generalizing machine with
  | _ length ih =>
    rcases Nat.eq_zero_or_pos length with hzero | hpositive
    · exact ⟨machine, .refl, rfl, eq_looping_of_distance (hlength.trans hzero)⟩
    · subst hlength
      have hnearer := distance_proceed h hpositive haway
      obtain ⟨final, hrun, hqueue, hlooping⟩ :=
        ih _ hnearer h.proceed_step (hnearer.le.trans haway) rfl
      have hfirst : OwnRun work machine (proceed work machine proc) := OwnRun.refl.proceed proc
      exact ⟨final, hfirst.trans hrun,
        hqueue.trans (onlyOwn_proceed (h.cpu proc)).queue, hlooping⟩

/-! ## Using the queue -/

/-- While a task of `kmain` is in the list, a processor comes to the end of its use of the queue. -/
theorem Supplied.exists_answer {out cells : List ℕ} (h : Supplied work machine)
    (hunlocked : Unlocked work machine.queue out cells) (ht : t ∈ work.ordinary)
    (hcell : t ∈ cells) {call : QueueCall} {position : Option ℕ} {rest : QueueCode ℕ}
    (hthread : machine.queue.thread (some proc) = .running call position rest) :
    ∃ answer final, OwnRun work machine final ∧ final.queue.shared.taskLock = 0 ∧
      (final.cpu proc).control = controlAfter answer (machine.cpu proc).control := by
  obtain ⟨next, left, rfl, hout⟩ :=
    hunlocked.out_ordinary h.invariant.queue h.supply ht hcell
  have hsafe (answer : ℕ) (hanswer : answer ≠ 0 → answer ∈ out ++ [next]) :
      ∀ other, other ≠ proc → answer ≠ work.idle other := by
    rintro other - rfl
    exact work.disjoint other (hout.subset (hanswer (work.idle_address other).1))
  rcases hunlocked.waiting _ _ _ _ hthread with ⟨rfl, rfl⟩ | ⟨answer, rfl, hanswer⟩
  · have hfresh : ∀ task ∈ enqueuedBy call, task ≠ 0 ∧ task < 2 ^ 64 ∧ task ∉ next :: left := by
      rcases (h.invariant.cpu proc).call hthread with ⟨-, rfl⟩ | ⟨-, rfl⟩
      · have hnew := h.invariant.pending proc (Or.inr ⟨_, hthread⟩)
        rw [hunlocked.split] at hnew
        obtain ⟨hnull, hword⟩ := work.idle_address proc
        intro task htask
        rw [List.mem_singleton.mp htask]
        exact ⟨hnull, hword, fun hmem ↦ hnew (List.mem_append_right _ hmem)⟩
      · exact nofun
    obtain ⟨answer, state, kept, hrun, hafter, horder⟩ :=
      run_queueBody hunlocked.queued call hfresh
    have hanswer : answer ≠ 0 → answer ∈ out ++ [next] := by
      intro hne
      cases call with
      | taskInit task => exact absurd ((yields_taskInitAppend task).of_run hrun) hne
      | idleTurn =>
        simp only [enqueuedBy, dequeuedBy, if_neg hne, List.append_nil, List.singleton_append,
          List.cons.injEq] at horder
        simp [horder.1]
    have hinside : OwnRun work machine _ := OwnRun.refl.inside
      (internal_alone machine.queue hthread (sectioned_queueBody call) hrun)
    exact ⟨answer, _, hinside.answer (Function.update_self ..) (hsafe answer hanswer), hafter.lock,
      by simp [afterAnswer]⟩
  · refine ⟨answer, _, OwnRun.refl.answer hthread (hsafe answer fun hne ↦ ?_),
      hunlocked.queued.lock, by simp [afterAnswer]⟩
    exact List.mem_append_left _ (hanswer hne)

/-- While a task of `kmain` is in the list, every processor comes to the head of its loop. -/
theorem Supplied.exists_looping {out cells : List ℕ} (h : Supplied work machine)
    (hunlocked : Unlocked work machine.queue out cells) (ht : t ∈ work.ordinary)
    (hcell : t ∈ cells) (proc : Proc) :
    ∃ final, OwnRun work machine final ∧ final.queue.shared.taskLock = 0 ∧
      (final.cpu proc).control = .looping := by
  have hback {middle : Machine Proc} (hrun : OwnRun work machine middle)
      (hfree : middle.queue.shared.taskLock = 0)
      (haway : distance (middle.cpu proc).control ≤ 6) :
      ∃ final, OwnRun work machine final ∧ final.queue.shared.taskLock = 0 ∧
        (final.cpu proc).control = .looping := by
    obtain ⟨final, hlater, hqueue, hlooping⟩ := (h.run hrun).invariant.exists_looping haway
    refine ⟨final, hrun.trans hlater, ?_, hlooping⟩
    rw [hqueue]
    exact hfree
  have hcpu := h.invariant.cpu proc
  cases hcontrol : (machine.cpu proc).control
  case parked =>
    have hidle := hcpu.idle_of_parked hcontrol
    have hnew := h.invariant.pending proc (Or.inl hcontrol)
    rw [hunlocked.split] at hnew
    obtain ⟨hnull, hword⟩ := work.idle_address proc
    obtain ⟨state, hrun, hafter⟩ := run_taskInitAppend hunlocked.queued hnull hword
      fun hmem ↦ hnew (List.mem_append_right _ hmem)
    have hcall : nextCall work proc (machine.cpu proc).control =
        some (.taskInit (work.idle proc), .initialising) := by
      rw [hcontrol]
      rfl
    have hbuilt : OwnRun work machine _ := OwnRun.refl.use proc (.taskInit (work.idle proc)) hcall
      hidle hrun fun other _ heq ↦ (work.idle_address other).1 heq.symm
    apply hback hbuilt hafter.lock
    simp [afterUse, controlAfter, distance]
  case initialising | turning =>
    unfold CpuHolds CpuInvariant at hcpu
    simp only [hcontrol] at hcpu
    obtain ⟨⟨position, rest, hthread⟩, -⟩ := hcpu
    obtain ⟨answer, middle, hrun, hfree, hmiddle⟩ := h.exists_answer hunlocked ht hcell hthread
    apply hback hrun hfree
    rw [hmiddle, hcontrol]
    by_cases hzero : answer = 0 <;> simp [controlAfter, hzero, distance]
  all_goals exact hback .refl hunlocked.queued.lock (by simp [hcontrol, distance])

/-- A task that is taken out is handed to a processor. -/
theorem Supplied.exists_took_of_out {out cells : List ℕ} (h : Supplied work machine)
    (hunlocked : Unlocked work machine.queue out cells) (ht : t ∈ work.ordinary) (hout : t ∈ out) :
    ∃ taker final, OwnRun work machine final ∧ Took final.queue.returned taker t := by
  obtain ⟨taker, htook | ⟨position, hthread⟩⟩ := hunlocked.handed h.supply t hout
  · exact ⟨taker, machine, .refl, htook⟩
  · refine ⟨taker, _, OwnRun.refl.answer hthread ?_, took_cons.mpr (Or.inl ⟨rfl, rfl, rfl⟩)⟩
    rintro other - rfl
    exact work.disjoint other ht

/-- Once the earlier tasks of `kmain` are out, the next one is the first in the list. -/
theorem Supplied.cells_eq {front back out cells : List ℕ} (h : Supplied work machine)
    (hunlocked : Unlocked work machine.queue out cells)
    (hordinary : work.ordinary = front ++ t :: back) (hfront : front ⊆ out) (hcell : t ∈ cells) :
    ∃ rest, cells = t :: rest := by
  have ht : t ∈ work.ordinary := by simp [hordinary]
  obtain ⟨next, rest, rfl, hout⟩ := hunlocked.out_ordinary h.invariant.queue h.supply ht hcell
  refine ⟨rest, ?_⟩
  have hnodup := h.invariant.queue.nodup
  rw [hunlocked.split] at hnodup
  have hnew : next ∉ out := fun hmem ↦
    (List.nodup_append.mp hnodup).2.2 next hmem next List.mem_cons_self rfl
  have hleft : t ∉ out := fun hmem ↦ (List.nodup_append.mp hnodup).2.2 t hmem t hcell rfl
  have hboth : front ++ [t] <+: work.ordinary := ⟨back, by simp [hordinary]⟩
  rcases List.prefix_or_prefix_of_prefix hout hboth with hshort | hshort
  · rcases List.prefix_concat_iff.mp hshort with heq | hin
    · rw [(List.append_inj' heq rfl).2 |> List.singleton_inj.mp]
    · exact absurd (hfront (hin.subset (by simp))) hnew
  · rcases List.prefix_concat_iff.mp hshort with heq | hin
    · rw [(List.append_inj' heq rfl).2 |> List.singleton_inj.mp]
    · exact absurd (hin.subset (by simp)) hleft

/-- The next task of `kmain` can be handed out. -/
theorem Supplied.exists_took {front back : List ℕ} (h : Supplied work machine)
    (hordinary : work.ordinary = front ++ t :: back)
    (hfront : ∀ task ∈ front, ∃ taker, Took machine.queue.returned taker task) (proc : Proc) :
    ∃ taker final, OwnRun work machine final ∧ Took final.queue.returned taker t := by
  have ht : t ∈ work.ordinary := by simp [hordinary]
  have hplace {middle : Machine Proc} (hrun : OwnRun work machine middle)
      (hfree : middle.queue.shared.taskLock = 0) :
      ∃ out cells, Unlocked work middle.queue out cells ∧ (t ∈ out ∨ t ∈ cells) := by
    have hmiddle := h.run hrun
    obtain ⟨out, cells, hunlocked⟩ := hmiddle.invariant.queue.unlocked hfree
    have hmem := hmiddle.supply.first.subset ht
    rw [hunlocked.split] at hmem
    exact ⟨out, cells, hunlocked, List.mem_append.mp hmem⟩
  have hout {middle : Machine Proc} {out cells : List ℕ} (hrun : OwnRun work machine middle)
      (hunlocked : Unlocked work middle.queue out cells) (hmem : t ∈ out) :
      ∃ taker final, OwnRun work machine final ∧ Took final.queue.returned taker t := by
    obtain ⟨taker, final, hlater, htook⟩ := (h.run hrun).exists_took_of_out hunlocked ht hmem
    exact ⟨taker, final, hrun.trans hlater, htook⟩
  obtain ⟨free, hsteps, hfree⟩ := h.invariant.queue.exists_free
  have hfirst : OwnRun work machine { machine with queue := free } := OwnRun.refl.inside hsteps
  obtain ⟨out, cells, hunlocked, hmem | hcell⟩ := hplace hfirst hfree
  · exact hout hfirst hunlocked hmem
  obtain ⟨home, hlater, hfreeHome, hlooping⟩ :=
    (h.run hfirst).exists_looping hunlocked ht hcell proc
  have hhome := hfirst.trans hlater
  obtain ⟨out, cells, hunlocked, hmem | hcell⟩ := hplace hhome hfreeHome
  · exact hout hhome hunlocked hmem
  have hsupplied := h.run hhome
  have hgone : front ⊆ out := by
    intro task htask
    obtain ⟨taker, htook⟩ := hfront task htask
    have hnull := (work.ordinary_address task (by simp [hordinary, htask])).1
    exact hunlocked.took taker task (htook.mono (h.returned hhome)) hnull
  obtain ⟨rest, rfl⟩ := hsupplied.cells_eq hunlocked hordinary hgone hcell
  obtain ⟨state, hrun, -⟩ := run_idleTaskEntryTurn_cons hunlocked.queued
  have hcall : nextCall work proc (home.cpu proc).control = some (.idleTurn, .turning) := by
    rw [hlooping]
    rfl
  have hcpu := hsupplied.invariant.cpu proc
  unfold CpuHolds CpuInvariant at hcpu
  simp only [hlooping] at hcpu
  refine ⟨proc, _, hhome.use proc .idleTurn hcall hcpu.1 hrun ?_,
    took_cons.mpr (Or.inl ⟨rfl, rfl, rfl⟩)⟩
  rintro other - rfl
  exact work.disjoint other ht

/-! ## Every task -/

variable {taken : List (Taken (Machine Proc) (Event Proc))}

/-- A task that was handed out can be executed. -/
theorem exists_executed (hbooted : Booted work start)
    (hrun : Run (MachineStep work) start taken machine)
    (hown : ∀ step ∈ taken, NoForeignIdle work step) (ht : t ∈ work.ordinary)
    (htook : Took machine.queue.returned proc t) :
    ∃ later final, Run (MachineStep work) machine later final ∧
      (∀ step ∈ later, NoForeignIdle work step) ∧ t ∈ executed (taken ++ later) := by
  obtain ⟨hinvariant, honce⟩ := executedOnce_of_run hbooted hrun hown
  rcases honce.kept proc t ht htook with hpast | hholds
  · exact ⟨[], machine, .nil, nofun, by rwa [List.append_nil]⟩
  · have haway : distance (machine.cpu proc).control ≤ 6 := by
      cases hcontrol : (machine.cpu proc).control <;> simp [Holding, hcontrol, distance] at hholds ⊢
    obtain ⟨final, ⟨later, hlater, hlaterOwn⟩, hqueue, hlooping⟩ :=
      hinvariant.exists_looping haway
    obtain ⟨-, hfinal⟩ := executedOnce_of_run hbooted (hrun.append hlater)
      (List.forall_mem_append.mpr ⟨hown, hlaterOwn⟩)
    rw [← hqueue] at htook
    refine ⟨later, final, hlater, hlaterOwn, (hfinal.kept proc t ht htook).resolve_right ?_⟩
    exact not_holding (by simp [hlooping])

omit [DecidableEq Proc] in
theorem executed_append (taken later : List (Taken (Machine Proc) (Event Proc))) :
    executed (taken ++ later) = executed taken ++ executed later := List.filterMap_append

/-- The first tasks of `kmain` can all be executed. -/
theorem exists_executed_front (hbooted : Booted work start)
    (hrun : Run (MachineStep work) start taken machine)
    (hown : ∀ step ∈ taken, NoForeignIdle work step) (proc : Proc) (front : List ℕ) :
    ∀ back, work.ordinary = front ++ back → ∃ later final,
      Run (MachineStep work) machine later final ∧ (∀ step ∈ later, NoForeignIdle work step) ∧
        front ⊆ executed (taken ++ later) := by
  induction front using List.reverseRecOn with
  | nil => exact fun _ _ ↦ ⟨[], machine, .nil, nofun, List.nil_subset _⟩
  | append_singleton front t ih =>
    intro back hordinary
    rw [List.append_assoc, List.singleton_append] at hordinary
    have ht : t ∈ work.ordinary := by simp [hordinary]
    obtain ⟨first, middle, hfirst, hfirstOwn, hfront⟩ := ih (t :: back) hordinary
    have hmiddle := hrun.append hfirst
    have hmiddleOwn := List.forall_mem_append.mpr ⟨hown, hfirstOwn⟩
    obtain ⟨-, honce⟩ := executedOnce_of_run hbooted hmiddle hmiddleOwn
    have hsupplied : Supplied work middle :=
      (supplied_booted hbooted).run ⟨_, hmiddle, hmiddleOwn⟩
    obtain ⟨taker, handed, ⟨second, hsecond, hsecondOwn⟩, htook⟩ :=
      hsupplied.exists_took hordinary (fun task htask ↦ (honce.source task (hfront htask)).2)
        proc
    obtain ⟨third, final, hthird, hthirdOwn, hlast⟩ := exists_executed hbooted
      (hmiddle.append hsecond) (List.forall_mem_append.mpr ⟨hmiddleOwn, hsecondOwn⟩) ht htook
    have hlaterOwn : ∀ step ∈ first ++ second ++ third, NoForeignIdle work step := by
      rw [List.forall_mem_append, List.forall_mem_append]
      exact ⟨⟨hfirstOwn, hsecondOwn⟩, hthirdOwn⟩
    refine ⟨_, final, (hfirst.append hsecond).append hthird, hlaterOwn, ?_⟩
    simp only [← List.append_assoc, List.append_subset]
    refine ⟨fun task htask ↦ ?_, List.cons_subset.mpr ⟨hlast, List.nil_subset _⟩⟩
    rw [List.append_assoc, executed_append]
    exact List.mem_append_left _ (hfront htask)

/-- From every machine that is reached without handing a processor the idle task of another, there
is such a continuation in which each task of `kmain` is executed, each of them once. -/
theorem tasks_can_finish (hbooted : Booted work start)
    (hrun : Run (MachineStep work) start taken machine)
    (hown : ∀ step ∈ taken, NoForeignIdle work step) (proc : Proc) :
    ∃ later final, Run (MachineStep work) machine later final ∧
      (∀ step ∈ later, NoForeignIdle work step) ∧
      (executed (taken ++ later)).Perm work.ordinary := by
  obtain ⟨later, final, hlater, hlaterOwn, hall⟩ :=
    exists_executed_front hbooted hrun hown proc work.ordinary [] (List.append_nil _).symm
  obtain ⟨-, honce⟩ := executedOnce_of_run hbooted (hrun.append hlater)
    (List.forall_mem_append.mpr ⟨hown, hlaterOwn⟩)
  refine ⟨later, final, hlater, hlaterOwn, ?_⟩
  rw [List.perm_ext_iff_of_nodup honce.nodup work.nodup]
  exact fun t ↦ ⟨fun hpast ↦ (honce.source t hpast).1, fun ht ↦ hall ht⟩

end Machines

/-- Before any processor is released, the one task can be executed. -/
theorem tasks_can_finish_oneTask : ∃ later final,
    Run (MachineStep oneTaskWorkload) oneTaskStart later final ∧
      (executed later).Perm [4096] := by
  obtain ⟨later, final, hrun, -, hperm⟩ :=
    tasks_can_finish booted_oneTaskStart .nil (by simp) true
  exact ⟨later, final, hrun, hperm⟩

end SideHOS.Tasks
