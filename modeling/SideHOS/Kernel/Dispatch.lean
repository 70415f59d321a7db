import SideHOS.Kernel.Tasks
import SideHOS.Sharing.Interleaving

/-!
# Processors and tasks

The application processors, from `ap_entry` through the loop of `idle_task_entry` to the bodies of
tasks and `task_exit`, over the shared task queue.  A task is its address, and a stack is named by
the task whose stack it is; the boot stack is `0`.

The stack pointer in a task's context points at one of two places: at the address of
`task_trampoline` that `task_init` left on its stack, or at the return address of the last call
that `idle_task_entry` made on the stack where the context was saved.  `save_context` and
`restore_context` are called with the same stack pointer, so that the return address of the later
call stands in the place of the earlier one.
-/

namespace SideHOS.Kernel

open Sharing

variable {Proc : Type}

/-- The tasks that `kmain` builds and enqueues, and the idle task that `ap_entry` builds on each
processor; `kmalloc` gives each of them its own address. -/
structure Workload (Proc : Type) where
  ordinary : List ℕ
  idle : Proc → ℕ
  nodup : ordinary.Nodup
  injective : Function.Injective idle
  disjoint : ∀ proc, idle proc ∉ ordinary
  ordinary_address : ∀ t ∈ ordinary, t ≠ 0 ∧ t < 2 ^ 64
  idle_address : ∀ proc, idle proc ≠ 0 ∧ idle proc < 2 ^ 64

/-- What the stack pointer of a context points at. -/
inductive Resume where
  | trampoline
  | returnAddress
  deriving DecidableEq

/-- The context of a task: the stack its stack pointer lies in, and what is there. -/
structure SavedContext where
  stack : ℕ
  resume : Resume
  deriving DecidableEq

/-- Where the last call made by `idle_task_entry` returns to. -/
inductive ReturnAddress where
  | afterSave
  | afterRestore
  deriving DecidableEq

/-- The frame of `idle_task_entry` on a stack: its variables `t` and `cpu_local`, and the return
address of its last call. -/
structure IdleFrame (Proc : Type) where
  t : ℕ
  cpuLocal : Proc
  returnAddress : ReturnAddress

inductive Control where
  /-- wait for `goto_address` -/
  | parked
  /-- in `task_init(idle_task, idle_task_entry)`, at the queue -/
  | initialising
  /-- in `ap_entry`, after `task_init` -/
  | initialised
  /-- in `ap_entry`, at `task_run` -/
  | installed
  /-- in `idle_task_entry`, before the queue -/
  | looping
  /-- in `idle_task_entry`, at the queue -/
  | turning
  /-- in `idle_task_entry`, at `save_context()` -/
  | obtained
  /-- in `idle_task_entry`, after `save_context()` -/
  | saved
  /-- in `idle_task_entry`, at `restore_context(t)` -/
  | switched
  /-- in the entry function of a task that `kmain` built -/
  | body
  /-- in `task_exit`, before `current_task` is set -/
  | exiting
  /-- in `task_exit`, at `restore_context(idle)` -/
  | exited
  deriving DecidableEq

/-- The `CPULocal` of a processor, its stack, and its control. -/
@[ext]
structure Cpu where
  idleTask : ℕ
  currentTask : ℕ
  stack : ℕ
  control : Control

/-- The queue, the processors, the contexts of the tasks, and the frames on their stacks.  In the
queue, `none` is the processor that runs `kmain`. -/
@[ext]
structure Machine (Proc : Type) where
  queue : Config QueueAccess QueueState (Option Proc) QueueCall ℕ
  cpu : Proc → Cpu
  context : ℕ → SavedContext
  frame : ℕ → IdleFrame Proc

variable [DecidableEq Proc] (work : Workload Proc) (machine : Machine Proc) (proc : Proc)

/-- Where a processor that resumes the context of a task continues: in the entry function which
`task_trampoline` jumps to, or where the return address says. -/
def resumeControl (t : ℕ) : Control :=
  match (machine.context t).resume with
  | .trampoline => if t ∈ work.ordinary then .body else .looping
  | .returnAddress =>
      match (machine.frame (machine.context t).stack).returnAddress with
      | .afterSave => .saved
      | .afterRestore => .looping

/-- `restore_context(t)`, and `task_run(t->context.rsp)`. -/
def restoreContext (t : ℕ) : Machine Proc :=
  { machine with
    cpu := Function.update machine.cpu proc
      { machine.cpu proc with
        stack := (machine.context t).stack
        control := resumeControl work machine t } }

/-- `CPULocal *cpu_local = get_cpu_state(); save_context();` in `idle_task_entry`. -/
def saveContext : Machine Proc :=
  { machine with
    cpu := Function.update machine.cpu proc { machine.cpu proc with control := .saved }
    context := Function.update machine.context (machine.cpu proc).currentTask
      ⟨(machine.cpu proc).stack, .returnAddress⟩
    frame := Function.update machine.frame (machine.cpu proc).stack
      { machine.frame (machine.cpu proc).stack with
        cpuLocal := proc
        returnAddress := .afterSave } }

/-- `cpu_local->current_task = t` in `idle_task_entry`. -/
def setCurrentTask : Machine Proc :=
  let frame := machine.frame (machine.cpu proc).stack
  { machine with
    cpu := Function.update machine.cpu frame.cpuLocal
      { machine.cpu frame.cpuLocal with currentTask := frame.t } }

/-- The call of `restore_context` in `idle_task_entry` pushes its return address. -/
def pushReturn : Machine Proc :=
  { machine with
    frame := Function.update machine.frame (machine.cpu proc).stack
      { machine.frame (machine.cpu proc).stack with returnAddress := .afterRestore } }

/-- The next step of a processor away from the queue. -/
def proceed : Machine Proc :=
  let cpu := machine.cpu proc
  match cpu.control with
  | .initialised =>
      { machine with
        cpu := Function.update machine.cpu proc
          { cpu with
            idleTask := work.idle proc
            currentTask := work.idle proc
            control := .installed } }
  | .installed => restoreContext work machine proc (work.idle proc)
  | .obtained => saveContext machine proc
  | .saved =>
      let after := setCurrentTask machine proc
      { after with
        cpu := Function.update after.cpu proc { after.cpu proc with control := .switched } }
  | .switched =>
      restoreContext work (pushReturn machine proc) proc (machine.frame cpu.stack).t
  | .body =>
      { machine with cpu := Function.update machine.cpu proc { cpu with control := .exiting } }
  | .exiting =>
      { machine with
        cpu := Function.update machine.cpu proc
          { cpu with
            currentTask := cpu.idleTask
            control := .exited } }
  | .exited => restoreContext work machine proc cpu.idleTask
  | .parked | .initialising | .looping | .turning => machine

/-- The use of the queue that a processor starts, with its control from then on. -/
def nextCall : Control → Option (QueueCall × Control)
  | .parked => some (.taskInit (work.idle proc), .initialising)
  | .looping => some (.idleTurn, .turning)
  | _ => none

/-- `task_init` sets the stack pointer of the task's context before it comes to the queue. -/
def prepareContext : QueueCall → (ℕ → SavedContext) → ℕ → SavedContext
  | .taskInit t, context => Function.update context t ⟨t, .trampoline⟩
  | .idleTurn, context => context

/-- The control of a processor to which the queue answers. -/
def controlAfter (answer : ℕ) : Control → Control
  | .initialising => .initialised
  | .turning => if answer = 0 then .looping else .obtained
  | control => control

/-- The frame of `idle_task_entry` once the queue has answered. -/
def frameAfter (answer : ℕ) : Control → IdleFrame Proc → IdleFrame Proc
  | .turning, frame => { frame with t := answer }
  | _, frame => frame

inductive Event (Proc : Type) where
  | queue
  | call (proc : Proc)
  | answer (proc : Proc) (task : ℕ)
  | proceed (proc : Proc)

/-- One step: an access to the queue by some processor, the start or the end of its use of the
queue, or a step away from the queue. -/
inductive MachineStep : Machine Proc → Event Proc → Machine Proc → Prop
  | queue (machine : Machine Proc)
      (after : Config QueueAccess QueueState (Option Proc) QueueCall ℕ)
      (hstep : Internal execQueue queueBody machine.queue after) :
      MachineStep machine .queue { machine with queue := after }
  | call (machine : Machine Proc) (proc : Proc) (call : QueueCall) (control : Control)
      (hcall : nextCall work proc (machine.cpu proc).control = some (call, control))
      (hthread : machine.queue.thread (some proc) = .idle) :
      MachineStep machine (.call proc)
        { machine with
          queue :=
            { machine.queue with
              thread := Function.update machine.queue.thread (some proc)
                (.running call none (queueBody call)) }
          cpu := Function.update machine.cpu proc { machine.cpu proc with control := control }
          context := prepareContext call machine.context }
  | answer (machine : Machine Proc) (proc : Proc) (call : QueueCall) (position : Option ℕ)
      (task : ℕ)
      (hthread : machine.queue.thread (some proc) = .running call position (.done task)) :
      MachineStep machine (.answer proc task)
        { machine with
          queue :=
            { machine.queue with
              thread := Function.update machine.queue.thread (some proc) .idle
              returned := ⟨some proc, call, position, task⟩ :: machine.queue.returned }
          cpu := Function.update machine.cpu proc
            { machine.cpu proc with control := controlAfter task (machine.cpu proc).control }
          frame := Function.update machine.frame (machine.cpu proc).stack
            (frameAfter task (machine.cpu proc).control
              (machine.frame (machine.cpu proc).stack)) }
  | proceed (machine : Machine Proc) (proc : Proc) :
      MachineStep machine (.proceed proc) (proceed work machine proc)

/-- `kmain` has enqueued its tasks, and no application processor has been released. -/
structure Booted : Prop where
  reach : Reaches execQueue queueBody emptyQueue machine.queue
  idle : ∀ proc, machine.queue.thread proc = .idle
  order : machine.queue.order = work.ordinary.map fun t ↦ (none, .taskInit t)
  cpu : ∀ proc, machine.cpu proc = ⟨0, 0, 0, .parked⟩
  context : ∀ t ∈ work.ordinary, machine.context t = ⟨t, .trampoline⟩

end SideHOS.Kernel
