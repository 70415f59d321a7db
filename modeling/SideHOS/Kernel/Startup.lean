import SideHOS.Kernel.Dispatch
import SideHOS.Kernel.Serial
import SideHOS.Transition.Run

/-!
# The end of `kmain` beside the application processors

`kmain` writes the `goto_address` of the application processors one after another, calls
`init_hardware`, which is `serial_init`, prints its greeting and halts.  An application processor
may begin at any time after its `goto_address` is written; it then takes its steps as before, and
the entry functions of its tasks print.  `kmain` runs on `none`.
-/

namespace SideHOS.Kernel

open Sharing

variable {Proc : Type}

/-- The fields of `struct limine_mp_response` that `kmain` reads, and `cpus[i]->lapic_id`. -/
structure MpResponse (Proc : Type) where
  bspLapicId : ℕ
  cpus : List Proc
  lapicId : Proc → ℕ

inductive KmainControl (Proc : Type) where
  /-- in the loop that writes `goto_address`, with the processors left -/
  | releasing (cpus : List Proc)
  /-- in `init_hardware` -/
  | initialising (rest : SerialCode Unit)
  /-- before the greeting -/
  | greeting
  /-- at `serial_lock`, or printing the greeting -/
  | printing
  /-- in `halt` -/
  | halted

/-- `kmain`, whose `goto_address` it has written, the processors and the tasks, which of them have
printed what their task prints, and the serial port. -/
structure Startup (Proc : Type) where
  kmain : KmainControl Proc
  released : Proc → Bool
  machine : Machine Proc
  printed : Proc → Bool
  serial : SerialConfig (Option Proc)

inductive StartupEvent (Proc : Type) where
  | kmain
  | outb (port : ℕ) (value : UInt8)
  | machine (event : Event Proc)
  | serial (event : SerialEvent (Option Proc))

/-- `serial_init` has completed. -/
def KmainControl.Initialised : KmainControl Proc → Prop
  | .releasing _ | .initialising _ => False
  | .greeting | .printing | .halted => True

/-- What the entry function of a task prints.  `kmain` builds tasks with `factorial_task` and with
`fibonacci_task` in turn. -/
def taskPrinter (work : Workload Proc) (t : ℕ) : Printer :=
  if work.ordinary.idxOf t % 2 = 0 then .factorial 100 else .fibonacci 1000000

/-- A processor starts once it is released, and its task returns once it has printed. -/
def MayProceed (startup : Startup Proc) : Event Proc → Prop
  | .call proc => startup.released proc = true
  | .proceed proc => (startup.machine.cpu proc).control = .body → startup.printed proc = true
  | .queue | .answer _ _ => True

variable [DecidableEq Proc]

/-- The body of a task has not printed when it is entered. -/
def printedAfterMachine (printed : Proc → Bool) : Event Proc → Proc → Bool
  | .proceed proc => Function.update printed proc false
  | .queue | .call _ | .answer _ _ => printed

variable (mp : MpResponse Proc) (work : Workload Proc)

/-- `kmain` prints the greeting when it comes to it, and a processor prints once in the body of its
task. -/
def MayPrint (startup : Startup Proc) : SerialEvent (Option Proc) → Prop
  | .start none printer => startup.kmain = .greeting ∧ printer = .greeting
  | .start (some proc) printer =>
      (startup.machine.cpu proc).control = .body ∧ startup.printed proc = false ∧
        printer = taskPrinter work (startup.machine.cpu proc).stack
  | .retry _ | .enter _ | .access _ _ | .leave _ => True

def printedAfterSerial (printed : Proc → Bool) : SerialEvent (Option Proc) → Proc → Bool
  | .leave (some proc) => Function.update printed proc true
  | .leave none | .start _ _ | .retry _ | .enter _ | .access _ _ => printed

/-- Where `kmain` is after a step at the serial port. -/
def kmainAfterSerial (kmain : KmainControl Proc) : SerialEvent (Option Proc) → KmainControl Proc
  | .start none _ => .printing
  | .leave none => .halted
  | .start (some _) _ | .leave (some _) | .retry _ | .enter _ | .access _ _ => kmain

/-- One step of `kmain`, of a processor on its way through its tasks, or at the serial port. -/
inductive StartupStep : Startup Proc → StartupEvent Proc → Startup Proc → Prop
  | release (startup : Startup Proc) (cpu : Proc) (cpus : List Proc)
      (hkmain : startup.kmain = .releasing (cpu :: cpus)) :
      StartupStep startup .kmain
        { startup with
          kmain := .releasing cpus
          released :=
            if mp.lapicId cpu ≠ mp.bspLapicId then Function.update startup.released cpu true
            else startup.released }
  | initHardware (startup : Startup Proc) (hkmain : startup.kmain = .releasing []) :
      StartupStep startup .kmain { startup with kmain := .initialising serialInit }
  | outb (startup : Startup Proc) (port : ℕ) (value : UInt8) (next : ℕ → SerialCode Unit)
      (hkmain : startup.kmain = .initialising (.access (.outb port value) next)) :
      StartupStep startup (.outb port value) { startup with kmain := .initialising (next 0) }
  | initialised (startup : Startup Proc) (hkmain : startup.kmain = .initialising (.done ())) :
      StartupStep startup .kmain { startup with kmain := .greeting }
  | machine (startup : Startup Proc) (event : Event Proc) (after : Machine Proc)
      (hallowed : MayProceed startup event)
      (hstep : MachineStep work startup.machine event after) :
      StartupStep startup (.machine event)
        { startup with
          machine := after
          printed := printedAfterMachine startup.printed event }
  | serial (startup : Startup Proc) (event : SerialEvent (Option Proc))
      (after : SerialConfig (Option Proc)) (hallowed : MayPrint work startup event)
      (hstep : SerialStep startup.serial event after) :
      StartupStep startup (.serial event)
        { startup with
          kmain := kmainAfterSerial startup.kmain event
          printed := printedAfterSerial startup.printed event
          serial := after }

/-- `kmain` has enqueued its tasks and comes to the loop that writes `goto_address`. -/
structure TasksCreated (startup : Startup Proc) : Prop where
  kmain : startup.kmain = .releasing mp.cpus
  released : ∀ proc, startup.released proc = false
  machine : Booted work startup.machine
  printed : ∀ proc, startup.printed proc = false
  serial : startup.serial = silent

end SideHOS.Kernel
