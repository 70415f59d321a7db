import SideHOS.Machine.Extent
import SideHOS.Machine.X86

/-!
# Context switching

The assembly of `save_context`, `restore_context`, `task_trampoline` and `task_run`, the stack
that `task_init` prepares, and one processor which runs this code and the compiled code of
`idle_task_entry`, of `task_exit` and of the entry functions of tasks.

A processor stands at a label.  The assembly is executed instruction by instruction.  Of the
compiled code only what the calls and the return addresses need is fixed: `idle_task_entry` has the
same stack pointer at its two calls, a function that returns pops the return address it was entered
with, and `task_exit` uses its stack below the return address.  Other registers are arbitrary.
-/

namespace SideHOS.Kernel.Context

open Machine Machine.ByteMemory Machine.X86

def taskContext : ℕ := 24

def taskSize : ℕ := 176

def contextSize : ℕ := 136

/-- `CTX_R15` to `CTX_RSP`. -/
def contextOffset : Register → ℕ
  | .r15 => 0
  | .r14 => 8
  | .r13 => 16
  | .r12 => 24
  | .r11 => 32
  | .r10 => 40
  | .r9 => 48
  | .r8 => 56
  | .rsi => 64
  | .rdi => 72
  | .rdx => 80
  | .rcx => 88
  | .rbx => 96
  | .rax => 104
  | .rbp => 112
  | .rsp => 120

def contextRflags : ℕ := 128

def cpuIdleTask : ℕ := 0

def cpuCurrentTask : ℕ := 8

def field (r : Register) : ℕ := taskContext + contextOffset r

def fields (registers : List Register) : List (Register × ℕ) :=
  registers.map fun r ↦ (r, field r)

/-- The part of `save_context` that saves `rdx`, `rax` and the flags. -/
def saveScratch : List Instruction :=
  [ .pushfq,
    .push .rax,
    .push .rdx,
    .loadGs cpuCurrentTask .rax,
    .pop .rdx,
    .store .rdx (field .rdx) .rax,
    .pop .rdx,
    .store .rdx (field .rax) .rax,
    .pop .rdx,
    .store .rdx (taskContext + contextRflags) .rax ]

def savedLast : List Register :=
  [.r15, .r14, .r13, .r12, .r11, .r10, .r9, .r8, .rsi, .rdi, .rcx, .rbx, .rbp, .rsp]

def saveContext : List Instruction :=
  saveScratch ++ storeFields .rax (fields savedLast) ++ [.ret]

/-- The registers that `restore_context` loads first, in order. -/
def loadedFirst : List Register :=
  [.r15, .r14, .r13, .r12, .r11, .r10, .r9, .r8, .rsi, .rdx, .rcx, .rbx, .rax, .rbp]

/-- The part of `restore_context` that loads the flags, `rsp` and `rdi`, and leaves. -/
def restoreLast : List Instruction :=
  [ .pushMemory (taskContext + contextRflags) .rdi,
    .popfq,
    .load (field .rsp) .rdi .rsp,
    .load (field .rdi) .rdi .rdi,
    .ret ]

def restoreContext : List Instruction :=
  loadFields .rdi (fields loadedFirst) ++ restoreLast

def taskTrampoline : List Instruction :=
  [.pop .rax, .pop .rdi, .pop .rdx, .push .rdx, .jmp .rax]

def taskRun : List Instruction := [.mov .rdi .rsp, .ret]

/-- Places in the code; `entry` are the entry functions of the tasks that `kmain` builds. -/
inductive Label (Entry : Type) where
  | taskRun
  | taskTrampoline
  | idleTaskEntry
  /-- the head of the loop of `idle_task_entry` -/
  | idleLoop
  /-- the call of `save_context` in `idle_task_entry` -/
  | atSave
  | afterSave
  /-- the call of `restore_context` in `idle_task_entry` -/
  | atRestore
  | afterRestore
  | taskExit
  /-- behind the call of `restore_context` in `task_exit` -/
  | exitReturn
  | entry (function : Entry)

/-- The compiled kernel: the addresses of its code, and the bytes of stack which the prologues of
`idle_task_entry` and `task_exit` take. -/
structure Text (Entry : Type) where
  address : Label Entry → ℕ
  injective : Function.Injective address
  word : ∀ label, address label < 2 ^ 64
  idleFrame : ℕ
  exitFrame : ℕ
  idleFrame_le : idleFrame ≤ 2048
  exitFrame_le : exitFrame ≤ 2048

variable {Entry : Type} (text : Text Entry)

/-- The end of a task's stack, aligned down to 16 bytes. -/
def stackTop (stack : ℕ) : ℕ := (stack + 4096) / 16 * 16

/-- What `task_init` writes before it comes to the queue: `t->stack`, `t->entry`, the first words
of the stack, and `t->context.rsp`. -/
def taskInitStack (t stack : ℕ) (entry : Label Entry) (memory : Memory) : Memory :=
  let sp := stackTop stack
  let memory := store64 memory t stack
  let memory := store64 memory (t + 8) (text.address entry)
  let memory := store64 memory (sp - 8) (text.address .taskExit)
  let memory := store64 memory (sp - 16) t
  let memory := store64 memory (sp - 24) (text.address entry)
  let memory := store64 memory (sp - 32) (text.address .taskTrampoline)
  store64 memory (t + field .rsp) (sp - 32)

/-- A processor, with the variable `t` of `idle_task_entry`. -/
structure Processor where
  core : Core
  t : ℕ

inductive Event where
  | launch
  | trampoline
  | prologue
  | again
  | dequeue (task : ℕ)
  | save
  | switch
  | restore
  | enter (function task : ℕ)
  | exit

/-- `task_exit` up to its call of `restore_context(idle)`: its prologue writes below the return
address, and `current_task` becomes the idle task. -/
structure ExitCall (before after : Core) : Prop where
  rsp : after.reg .rsp = before.reg .rsp - text.exitFrame
  rdi : after.reg .rdi = before.gs cpuIdleTask
  gs : after.gs = Function.update before.gs cpuCurrentTask (before.gs cpuIdleTask)
  memory : ∀ x, x < before.reg .rsp - text.exitFrame ∨ before.reg .rsp ≤ x →
    after.memory x = before.memory x

inductive ProcessorStep : Processor → Event → Processor → Prop
  | launch (processor : Processor) (hrip : processor.core.rip = text.address .taskRun) :
      ProcessorStep processor .launch { processor with core := run taskRun processor.core }
  | trampoline (processor : Processor)
      (hrip : processor.core.rip = text.address .taskTrampoline) :
      ProcessorStep processor .trampoline
        { processor with core := run taskTrampoline processor.core }
  | prologue (processor : Processor) (after : Core)
      (hrip : processor.core.rip = text.address .idleTaskEntry)
      (hnext : after.rip = text.address .idleLoop)
      (hrsp : after.reg .rsp = processor.core.reg .rsp - text.idleFrame)
      (hgs : after.gs = processor.core.gs) :
      ProcessorStep processor .prologue { processor with core := after }
  | again (processor : Processor) (hrip : processor.core.rip = text.address .afterRestore) :
      ProcessorStep processor .again
        { processor with core := { processor.core with rip := text.address .idleLoop } }
  | dequeue (processor : Processor) (after : Core) (task : ℕ) (hwords : after.Words)
      (hrip : processor.core.rip = text.address .idleLoop)
      (hnext : after.rip = text.address .atSave)
      (hrsp : after.reg .rsp = processor.core.reg .rsp) (hgs : after.gs = processor.core.gs) :
      ProcessorStep processor (.dequeue task) ⟨after, task⟩
  | save (processor : Processor) (hrip : processor.core.rip = text.address .atSave) :
      ProcessorStep processor .save
        { processor with core := call (text.address .afterSave) saveContext processor.core }
  | switch (processor : Processor) (after : Core)
      (hrip : processor.core.rip = text.address .afterSave)
      (hnext : after.rip = text.address .atRestore)
      (hrsp : after.reg .rsp = processor.core.reg .rsp) (hrdi : after.reg .rdi = processor.t)
      (hgs : after.gs = Function.update processor.core.gs cpuCurrentTask processor.t)
      (hmemory : after.memory = processor.core.memory) :
      ProcessorStep processor .switch { processor with core := after }
  | restore (processor : Processor) (hrip : processor.core.rip = text.address .atRestore) :
      ProcessorStep processor .restore
        { processor with core := call (text.address .afterRestore) restoreContext processor.core }
  | enter (processor : Processor) (after : Core) (function : Entry)
      (hrip : processor.core.rip = text.address (.entry function))
      (hnext : after.rip = processor.core.top)
      (hrsp : after.reg .rsp = Word64.add (processor.core.reg .rsp) 8)
      (hgs : after.gs = processor.core.gs) :
      ProcessorStep processor (.enter (text.address (.entry function)) (processor.core.reg .rdi))
        { processor with core := after }
  | exit (processor : Processor) (middle : Core)
      (hrip : processor.core.rip = text.address .taskExit)
      (hcall : ExitCall text processor.core middle) :
      ProcessorStep processor .exit
        { processor with core := call (text.address .exitReturn) restoreContext middle }

end SideHOS.Kernel.Context
