import SideHOS.Kernel.Dispatch
import SideHOS.Tasks.Queue

/-!
# The tasks of one processor

A processor owns its idle task and the ordinary tasks it has taken from the queue.  Outside the
queue and `ap_entry` its current task and the task on whose stack it runs are tasks it owns: in
`idle_task_entry` its own idle task, and in the body of an ordinary task that task, while the
context of the idle task leads back behind its call of `restore_context`.  A step away from the
queue keeps this, and touches no other processor and no context and frame but those of the
processor's idle task.
-/

namespace SideHOS.Tasks

open Kernel Sharing

variable {Proc : Type}

section Ownership

variable {work : Workload Proc} {proc other : Proc} {t : ℕ}
  {returned later : List (Returned (Option Proc) QueueCall ℕ)}

def Took (returned : List (Returned (Option Proc) QueueCall ℕ)) (proc : Proc) (t : ℕ) : Prop :=
  ∃ position, ⟨some proc, .idleTurn, position, t⟩ ∈ returned

/-- The processor's own idle task, or an ordinary task it has taken. -/
def Owns (work : Workload Proc) (returned : List (Returned (Option Proc) QueueCall ℕ))
    (proc : Proc) (t : ℕ) : Prop :=
  t = work.idle proc ∨ t ∈ work.ordinary ∧ Took returned proc t

theorem Took.mono (h : Took returned proc t) (hlater : returned ⊆ later) : Took later proc t := by
  obtain ⟨position, hentry⟩ := h
  exact ⟨position, hlater hentry⟩

theorem Owns.mono (h : Owns work returned proc t) (hlater : returned ⊆ later) :
    Owns work later proc t :=
  h.imp_right fun htaken ↦ ⟨htaken.1, htaken.2.mono hlater⟩

/-- No two processors own the same task, if no two have taken the same ordinary task. -/
theorem Owns.unique (hfirst : Owns work returned proc t) (hsecond : Owns work returned other t)
    (htook : t ∈ work.ordinary → Took returned proc t → Took returned other t → proc = other) :
    proc = other := by
  rcases hfirst with rfl | ⟨hordinary, hproc⟩
  · rcases hsecond with heq | ⟨hordinary, -⟩
    · exact work.injective heq
    · exact absurd hordinary (work.disjoint proc)
  · rcases hsecond with rfl | ⟨-, hother⟩
    · exact absurd hordinary (work.disjoint other)
    · exact htook hordinary hproc hother

end Ownership

section Processor

variable (work : Workload Proc) (proc : Proc)
  (returned : List (Returned (Option Proc) QueueCall ℕ))
  (thread : Thread QueueAccess QueueCall ℕ) (cpu : Cpu) (context : SavedContext)
  (frame : IdleFrame Proc)

/-- The idle task is set up and nothing of it has run. -/
structure Starting : Prop where
  currentTask : cpu.currentTask = 0
  stack : cpu.stack = 0
  context : context = ⟨work.idle proc, .trampoline⟩

structure AtHome : Prop where
  idleTask : cpu.idleTask = work.idle proc
  currentTask : cpu.currentTask = work.idle proc
  stack : cpu.stack = work.idle proc

/-- The processor runs an ordinary task it has taken, and its idle task waits after its call of
`restore_context`. -/
structure Away : Prop where
  idleTask : cpu.idleTask = work.idle proc
  ordinary : cpu.stack ∈ work.ordinary
  took : Took returned proc cpu.stack
  context : context = ⟨work.idle proc, .returnAddress⟩
  frame : frame.returnAddress = .afterRestore

/-- What is true of a processor, of the context of its idle task, and of the frame on the stack of
its idle task. -/
def CpuInvariant : Prop :=
  match cpu.control with
  | .parked => thread = .idle ∧ cpu.currentTask = 0 ∧ cpu.stack = 0
  | .initialising =>
      (∃ position rest, thread = .running (.taskInit (work.idle proc)) position rest) ∧
        Starting work proc cpu context
  | .initialised => thread = .idle ∧ Starting work proc cpu context
  | .installed =>
      thread = .idle ∧ cpu.idleTask = work.idle proc ∧ cpu.currentTask = work.idle proc ∧
        cpu.stack = 0 ∧ context = ⟨work.idle proc, .trampoline⟩
  | .looping => thread = .idle ∧ AtHome work proc cpu
  | .turning => (∃ position rest, thread = .running .idleTurn position rest) ∧ AtHome work proc cpu
  | .obtained => thread = .idle ∧ AtHome work proc cpu ∧ Owns work returned proc frame.t
  | .saved =>
      thread = .idle ∧ AtHome work proc cpu ∧ Owns work returned proc frame.t ∧
        context = ⟨work.idle proc, .returnAddress⟩ ∧ frame.cpuLocal = proc
  | .switched =>
      thread = .idle ∧ cpu.idleTask = work.idle proc ∧ cpu.stack = work.idle proc ∧
        cpu.currentTask = frame.t ∧ Owns work returned proc frame.t ∧
        context = ⟨work.idle proc, .returnAddress⟩
  | .body | .exiting =>
      thread = .idle ∧ Away work proc returned cpu context frame ∧ cpu.currentTask = cpu.stack
  | .exited =>
      thread = .idle ∧ Away work proc returned cpu context frame ∧
        cpu.currentTask = work.idle proc

variable {work proc returned thread cpu context frame}

theorem Away.mono {later : List (Returned (Option Proc) QueueCall ℕ)}
    (h : Away work proc returned cpu context frame) (hlater : returned ⊆ later) :
    Away work proc later cpu context frame :=
  ⟨h.idleTask, h.ordinary, h.took.mono hlater, h.context, h.frame⟩

theorem continues_idle {next : Thread QueueAccess QueueCall ℕ} (h : Continues thread next)
    (hidle : thread = .idle) : next = .idle := by
  rcases h with rfl | ⟨call, position, rest, later, next', hrunning, -⟩
  · exact hidle
  · rw [hidle] at hrunning
    cases hrunning

theorem continues_running {next : Thread QueueAccess QueueCall ℕ} {call : QueueCall}
    (h : Continues thread next) (hrunning : ∃ position rest, thread = .running call position rest) :
    ∃ position rest, next = .running call position rest := by
  obtain ⟨position, rest, hthread⟩ := hrunning
  rcases h with rfl | ⟨call', position', rest', later, next', hbefore, hafter, -⟩
  · exact ⟨position, rest, hthread⟩
  · rw [hthread] at hbefore
    obtain ⟨rfl, -, -⟩ := Thread.running.inj hbefore
    exact ⟨later, next', hafter⟩

/-- Steps of the queue and answers to other processors keep what is true of a processor. -/
theorem CpuInvariant.mono {next : Thread QueueAccess QueueCall ℕ}
    {later : List (Returned (Option Proc) QueueCall ℕ)}
    (h : CpuInvariant work proc returned thread cpu context frame) (hnext : Continues thread next)
    (hlater : returned ⊆ later) : CpuInvariant work proc later next cpu context frame := by
  unfold CpuInvariant at h ⊢
  cases hcontrol : cpu.control <;> simp only [hcontrol] at h ⊢
  case parked | initialised | installed | looping => exact ⟨continues_idle hnext h.1, h.2⟩
  case initialising | turning => exact ⟨continues_running hnext h.1, h.2⟩
  case obtained => exact ⟨continues_idle hnext h.1, h.2.1, h.2.2.mono hlater⟩
  case saved =>
    obtain ⟨hthread, hhome, howns, hcontext⟩ := h
    exact ⟨continues_idle hnext hthread, hhome, howns.mono hlater, hcontext⟩
  case switched =>
    obtain ⟨hthread, hidle, hstack, hcurrent, howns, hcontext⟩ := h
    exact ⟨continues_idle hnext hthread, hidle, hstack, hcurrent, howns.mono hlater, hcontext⟩
  case body | exiting | exited => exact ⟨continues_idle hnext h.1, h.2.1.mono hlater, h.2.2⟩

/-- A processor owns its current task. -/
theorem CpuInvariant.owns_currentTask
    (h : CpuInvariant work proc returned thread cpu context frame) (hne : cpu.currentTask ≠ 0) :
    Owns work returned proc cpu.currentTask := by
  unfold CpuInvariant at h
  cases hcontrol : cpu.control <;> simp only [hcontrol] at h
  case parked => exact absurd h.2.1 hne
  case initialising | initialised => exact absurd h.2.currentTask hne
  case installed => exact Or.inl h.2.2.1
  case looping | turning => exact Or.inl h.2.currentTask
  case obtained | saved => exact Or.inl h.2.1.currentTask
  case switched =>
    obtain ⟨-, -, -, hcurrent, howns, -⟩ := h
    rw [hcurrent]
    exact howns
  case body | exiting =>
    rw [h.2.2]
    exact Or.inr ⟨h.2.1.ordinary, h.2.1.took⟩
  case exited => exact Or.inl h.2.2

/-- A processor owns the task on whose stack it runs. -/
theorem CpuInvariant.owns_stack
    (h : CpuInvariant work proc returned thread cpu context frame) (hne : cpu.stack ≠ 0) :
    Owns work returned proc cpu.stack := by
  unfold CpuInvariant at h
  cases hcontrol : cpu.control <;> simp only [hcontrol] at h
  case parked => exact absurd h.2.2 hne
  case initialising | initialised => exact absurd h.2.stack hne
  case installed => exact absurd h.2.2.2.1 hne
  case looping | turning => exact Or.inl h.2.stack
  case obtained | saved => exact Or.inl h.2.1.stack
  case switched => exact Or.inl h.2.2.1
  case body | exiting | exited => exact Or.inr ⟨h.2.1.ordinary, h.2.1.took⟩

end Processor

section Proceed

variable [DecidableEq Proc] {work : Workload Proc} {machine : Machine Proc} {proc : Proc}

/-- What is true of one processor of a machine. -/
abbrev CpuHolds (work : Workload Proc) (machine : Machine Proc) (proc : Proc) : Prop :=
  CpuInvariant work proc machine.queue.returned (machine.queue.thread (some proc))
    (machine.cpu proc) (machine.context (work.idle proc)) (machine.frame (work.idle proc))

omit [DecidableEq Proc] in
/-- The idle task starts from its fresh context at the head of its loop. -/
theorem resumeControl_fresh (hcontext : machine.context (work.idle proc) =
    ⟨work.idle proc, .trampoline⟩) : resumeControl work machine (work.idle proc) = .looping := by
  simp only [resumeControl, hcontext]
  exact if_neg (work.disjoint proc)

omit [DecidableEq Proc] in
/-- The idle task goes on with its loop after its call of `restore_context`. -/
theorem resumeControl_kept (hcontext : machine.context (work.idle proc) =
    ⟨work.idle proc, .returnAddress⟩)
    (hframe : (machine.frame (work.idle proc)).returnAddress = .afterRestore) :
    resumeControl work machine (work.idle proc) = .looping := by
  simp only [resumeControl, hcontext, hframe]

omit [DecidableEq Proc] in
/-- An ordinary task starts at its entry function. -/
theorem resumeControl_ordinary {t : ℕ} (ht : t ∈ work.ordinary)
    (hcontext : machine.context t = ⟨t, .trampoline⟩) :
    resumeControl work machine t = .body := by
  simp only [resumeControl, hcontext]
  exact if_pos ht

/-- Returning to the idle task. -/
theorem cpuHolds_restoreContext_idle
    (hthread : machine.queue.thread (some proc) = .idle)
    (hidle : (machine.cpu proc).idleTask = work.idle proc)
    (hcurrent : (machine.cpu proc).currentTask = work.idle proc)
    (hstack : (machine.context (work.idle proc)).stack = work.idle proc)
    (hresume : resumeControl work machine (work.idle proc) = .looping) :
    CpuHolds work (restoreContext work machine proc (work.idle proc)) proc := by
  have hcpu : (restoreContext work machine proc (work.idle proc)).cpu proc =
      ⟨work.idle proc, work.idle proc, work.idle proc, .looping⟩ := by
    simp [restoreContext, hidle, hcurrent, hstack, hresume]
  rw [CpuHolds, hcpu]
  exact ⟨hthread, rfl, rfl, rfl⟩

/-- Switching to an ordinary task. -/
theorem cpuHolds_restoreContext_ordinary {t : ℕ}
    (hthread : machine.queue.thread (some proc) = .idle)
    (hidle : (machine.cpu proc).idleTask = work.idle proc)
    (hcurrent : (machine.cpu proc).currentTask = t) (ht : t ∈ work.ordinary)
    (htook : Took machine.queue.returned proc t)
    (hfresh : machine.context t = ⟨t, .trampoline⟩)
    (hcontext : machine.context (work.idle proc) = ⟨work.idle proc, .returnAddress⟩)
    (hframe : (machine.frame (work.idle proc)).returnAddress = .afterRestore) :
    CpuHolds work (restoreContext work machine proc t) proc := by
  have hcpu : (restoreContext work machine proc t).cpu proc = ⟨work.idle proc, t, t, .body⟩ := by
    simp [restoreContext, hidle, hcurrent, hfresh, resumeControl_ordinary ht hfresh]
  rw [CpuHolds, hcpu]
  exact ⟨hthread, ⟨rfl, ht, htook, hcontext, hframe⟩, rfl⟩

/-- A step away from the queue keeps what is true of its processor. -/
theorem cpuHolds_proceed (hordinary : ∀ t ∈ work.ordinary, machine.context t = ⟨t, .trampoline⟩)
    (h : CpuHolds work machine proc) : CpuHolds work (proceed work machine proc) proc := by
  have hcpu := h
  unfold CpuHolds CpuInvariant at hcpu
  cases hcontrol : (machine.cpu proc).control <;> simp only [hcontrol] at hcpu
  case parked | initialising | looping | turning =>
    simpa only [proceed, hcontrol] using h
  case initialised =>
    obtain ⟨hthread, hcurrent, hstack, hcontext⟩ := hcpu
    simp only [proceed, hcontrol, CpuHolds, Function.update_self, CpuInvariant]
    exact ⟨hthread, trivial, trivial, hstack, hcontext⟩
  case installed =>
    obtain ⟨hthread, hidle, hcurrent, hstack, hcontext⟩ := hcpu
    simp only [proceed, hcontrol]
    exact cpuHolds_restoreContext_idle hthread hidle hcurrent (by rw [hcontext])
      (resumeControl_fresh hcontext)
  case obtained =>
    obtain ⟨hthread, ⟨hidle, hcurrent, hstack⟩, howns⟩ := hcpu
    simp only [proceed, hcontrol, saveContext, CpuHolds, hcurrent, hstack, Function.update_self,
      CpuInvariant]
    exact ⟨hthread, ⟨hidle, rfl, rfl⟩, howns, trivial, trivial⟩
  case saved =>
    obtain ⟨hthread, ⟨hidle, hcurrent, hstack⟩, howns, hcontext, hlocal⟩ := hcpu
    simp only [proceed, hcontrol, setCurrentTask, CpuHolds, hstack, hlocal, Function.update_self,
      CpuInvariant]
    exact ⟨hthread, hidle, trivial, trivial, howns, hcontext⟩
  case switched =>
    obtain ⟨hthread, hidle, hstack, hcurrent, howns, hcontext⟩ := hcpu
    have hframe : ((pushReturn machine proc).frame (work.idle proc)).returnAddress =
        .afterRestore := by
      simp [pushReturn, hstack]
    simp only [proceed, hcontrol, hstack]
    rcases howns with ht | ⟨ht, htook⟩
    · rw [ht] at hcurrent ⊢
      have hkept : (pushReturn machine proc).context (work.idle proc) =
          ⟨work.idle proc, .returnAddress⟩ := hcontext
      exact cpuHolds_restoreContext_idle hthread hidle hcurrent (by rw [hkept])
        (resumeControl_kept hkept hframe)
    · exact cpuHolds_restoreContext_ordinary hthread hidle hcurrent ht htook (hordinary _ ht)
        hcontext hframe
  case body =>
    obtain ⟨hthread, haway, hcurrent⟩ := hcpu
    simp only [proceed, hcontrol, CpuHolds, Function.update_self, CpuInvariant]
    exact ⟨hthread, ⟨haway.idleTask, haway.ordinary, haway.took, haway.context, haway.frame⟩,
      hcurrent⟩
  case exiting =>
    obtain ⟨hthread, haway, hcurrent⟩ := hcpu
    simp only [proceed, hcontrol, CpuHolds, Function.update_self, CpuInvariant]
    exact ⟨hthread, ⟨haway.idleTask, haway.ordinary, haway.took, haway.context, haway.frame⟩,
      haway.idleTask⟩
  case exited =>
    obtain ⟨hthread, haway, hcurrent⟩ := hcpu
    simp only [proceed, hcontrol, haway.idleTask]
    exact cpuHolds_restoreContext_idle hthread haway.idleTask hcurrent (by rw [haway.context])
      (resumeControl_kept haway.context haway.frame)

omit [DecidableEq Proc] in
theorem resumeControl_ne_parked (t : ℕ) : resumeControl work machine t ≠ .parked := by
  unfold resumeControl
  repeat' split
  all_goals exact nofun

/-- No step away from the queue leads back to the start. -/
theorem parked_of_proceed (hafter : ((proceed work machine proc).cpu proc).control = .parked) :
    (machine.cpu proc).control = .parked := by
  cases hcontrol : (machine.cpu proc).control <;> simp only [proceed, hcontrol] at hafter
  case installed | switched | exited =>
    simp only [restoreContext, Function.update_self] at hafter
    exact absurd hafter (resumeControl_ne_parked _)
  all_goals simp_all [saveContext]

/-- What a step of one processor away from the queue leaves alone: the queue, the other
processors, and every context and frame but those of its idle task. -/
structure OnlyOwn (work : Workload Proc) (machine after : Machine Proc) (proc : Proc) : Prop where
  queue : after.queue = machine.queue
  cpu : ∀ other, other ≠ proc → after.cpu other = machine.cpu other
  context : ∀ t, t ≠ work.idle proc → after.context t = machine.context t
  frame : ∀ t, t ≠ work.idle proc → after.frame t = machine.frame t

theorem onlyOwn_proceed (h : CpuHolds work machine proc) :
    OnlyOwn work machine (proceed work machine proc) proc := by
  unfold CpuHolds CpuInvariant at h
  cases hcontrol : (machine.cpu proc).control <;> simp only [hcontrol] at h <;>
    simp only [proceed, hcontrol]
  case parked | initialising | looping | turning =>
    exact ⟨rfl, fun _ _ ↦ rfl, fun _ _ ↦ rfl, fun _ _ ↦ rfl⟩
  case initialised | installed | body | exiting | exited =>
    exact ⟨rfl, fun other hne ↦ Function.update_of_ne hne .., fun _ _ ↦ rfl, fun _ _ ↦ rfl⟩
  case saved =>
    obtain ⟨-, ⟨-, -, hstack⟩, -, -, hlocal⟩ := h
    refine ⟨rfl, fun other hne ↦ ?_, fun _ _ ↦ rfl, fun _ _ ↦ rfl⟩
    simp only [setCurrentTask, hstack, hlocal, Function.update_of_ne hne]
  case obtained =>
    obtain ⟨-, ⟨-, hcurrent, hstack⟩, -⟩ := h
    refine ⟨rfl, fun other hne ↦ Function.update_of_ne hne .., fun t ht ↦ ?_, fun t ht ↦ ?_⟩
    · rw [← hcurrent] at ht
      exact Function.update_of_ne ht ..
    · rw [← hstack] at ht
      exact Function.update_of_ne ht ..
  case switched =>
    obtain ⟨-, -, hstack, -⟩ := h
    refine ⟨rfl, fun other hne ↦ Function.update_of_ne hne .., fun _ _ ↦ rfl, fun t ht ↦ ?_⟩
    rw [← hstack] at ht
    exact Function.update_of_ne ht ..

end Proceed

end SideHOS.Tasks
