import SideHOS.Heap.Isolation
import SideHOS.Tasks.Dispatched
import SideHOS.Tasks.Resume

/-!
# The first dispatch of a task

`task_init` prepares four words below the aligned end of the stack.  Two pieces of assembly can
take them up: `restore_context`, which leaves through the stack pointer in the context, and
`task_run`, which gets this stack pointer as its argument.  Both end in `task_trampoline`, with the
stack pointer on its three operands, and `task_trampoline` goes on to the entry function as if it
had been called from `task_exit`.

`restore_context` also loads the flags in the context, which `task_init` does not write.  If the
trap flag was left there, a debug exception comes before the entry function.
-/

namespace SideHOS.Tasks.Switch

open Kernel.Context Machine Machine.ByteMemory Machine.X86 Heap Transition

/-- A record and the block for its stack, as `task_init` needs them. -/
structure StackBlock (t stack : ℕ) : Prop where
  record_le : t + taskSize ≤ 2 ^ 64
  stack_lt : stack + 4096 < 2 ^ 64
  apart : Extent.Apart ⟨t, taskSize⟩ ⟨stack, 4096⟩

/-- The words of the block that `task_init` prepares. -/
abbrev preparedWords (stack : ℕ) : Extent := ⟨stackTop stack - 32, 32⟩

def InBlock (stack : ℕ) (addresses : List ℕ) : Prop :=
  ∀ address ∈ addresses, Extent.Within ⟨address, 8⟩ ⟨stack, 4096⟩

section Launch

variable {Entry : Type} {text : Text Entry} {t stack below : ℕ} {entry : Label Entry}
  {core : Core} {memory before : Memory}

/-- What the launch of a task finds in memory. -/
structure Prepared (text : Text Entry) (t stack : ℕ) (entry : Label Entry) (memory : Memory) :
    Prop where
  rsp : load64 memory (t + field .rsp) = stackTop stack - 32
  trampoline : load64 memory (stackTop stack - 32) = text.address .taskTrampoline
  entryWord : load64 memory (stackTop stack - 24) = text.address entry
  taskWord : load64 memory (stackTop stack - 16) = t
  exitWord : load64 memory (stackTop stack - 8) = text.address .taskExit

/-- The core is at the entry function as after a call from `task_exit`: the task is the argument,
the stack is aligned as at a call, and a return leads to `task_exit`. -/
structure Entered (text : Text Entry) (t stack : ℕ) (entry : Label Entry) (core : Core) : Prop where
  rip : core.rip = text.address entry
  rdi : core.reg .rdi = t
  top : core.top = text.address .taskExit
  aligned : core.reg .rsp % 16 = 8
  within : Extent.Within ⟨core.reg .rsp, 8⟩ ⟨stack, 4096⟩
  returns : ∀ leaving : Core, leaving.reg .rsp = core.reg .rsp → leaving.top = core.top →
    (exec .ret leaving).rip = text.address .taskExit

/-- The core has come to `task_trampoline`, which leads to the entry function, within the block. -/
structure Launches (text : Text Entry) (t stack : ℕ) (entry : Label Entry) (core : Core) :
    Prop where
  rip : core.rip = text.address .taskTrampoline
  entered : Entered text t stack entry (run taskTrampoline core)
  in_block : InBlock stack (stackWords taskTrampoline core)

/-- The context and the prepared words are as `task_init` left them. -/
def AsPrepared (text : Text Entry) (t stack : ℕ) (entry : Label Entry) (before memory : Memory) :
    Prop :=
  (∀ x, (contextExtent t).Holds x → memory x = taskInitStack text t stack entry before x) ∧
    ∀ x, (preparedWords stack).Holds x → memory x = taskInitStack text t stack entry before x

/-- `restore_context(t)` leads to the entry function: no debug exception comes on the way, and apart
from the flags, which go over the stack of the caller, only words of the block are accessed. -/
structure RestoreEnters (text : Text Entry) (t stack : ℕ) (entry : Label Entry) (below : ℕ)
    (core : Core) : Prop where
  uninterrupted : ¬ Interrupted (restoreContext ++ taskTrampoline) core
  launches : Launches text t stack entry (run restoreContext core)
  in_block : ∃ top, stackWords restoreContext core = [below, below, top] ∧ InBlock stack [top]

/-- `task_run(t->context.rsp)` leads to the entry function, within the block and with no debug
exception on the way. -/
structure RunEnters (text : Text Entry) (t stack : ℕ) (entry : Label Entry) (core : Core) :
    Prop where
  uninterrupted : ¬ Interrupted (taskRun ++ taskTrampoline) core
  launches : Launches text t stack entry (run taskRun core)
  in_block : InBlock stack (stackWords taskRun core)

def contextTrapFlag (memory : Memory) (t : ℕ) : Bool :=
  (load64 memory (t + (taskContext + contextRflags))).testBit 8

/-- The first dispatch after `task_init`, by `restore_context(t)` from any core with its stack
elsewhere, or by `task_run(t->context.rsp)` from any core.  A core on which the trap flag is set is
interrupted at once; `restore_context` also needs it clear in what `task_init` found in the
context. -/
structure FirstDispatch (text : Text Entry) (t stack : ℕ) (entry : Label Entry)
    (before : Memory) : Prop where
  written : ∀ x, taskInitStack text t stack entry before x ≠ before x →
    (Extent.mk t taskSize).Holds x ∨ (Extent.mk stack 4096).Holds x
  restored : ∀ core below, AsPrepared text t stack entry before core.memory →
    core.reg .rdi = t → core.reg .rsp = below + 8 → below + 16 < 2 ^ 64 →
    Extent.Apart (contextExtent t) ⟨below, 16⟩ →
    Extent.Apart (preparedWords stack) ⟨below, 16⟩ →
    (RestoreEnters text t stack entry below core ↔
      core.trapFlag = false ∧ contextTrapFlag before t = false)
  launched : ∀ core, AsPrepared text t stack entry before core.memory →
    core.reg .rdi = load64 core.memory (t + field .rsp) →
    (RunEnters text t stack entry core ↔ core.trapFlag = false)

/-! ## What `task_init` writes -/

/-- `task_init` writes to the record and to the block. -/
theorem taskInitStack_of_outside {x : ℕ} (hrecord : ¬ (Extent.mk t taskSize).Holds x)
    (hstack : ¬ (Extent.mk stack 4096).Holds x) :
    taskInitStack text t stack entry before x = before x := by
  have hlow := le_stackTop stack
  have hhigh := stackTop_le stack
  have hfield : field .rsp = 144 := rfl
  simp only [Extent.Holds, Extent.stop, taskSize] at hrecord hstack
  simp only [taskInitStack, hfield]
  rw [store64_of_outside (by omega), store64_of_outside (by omega), store64_of_outside (by omega),
    store64_of_outside (by omega), store64_of_outside (by omega), store64_of_outside (by omega),
    store64_of_outside (by omega)]

/-- What leaves the context and the prepared words alone leaves the task ready. -/
theorem prepared_of_agree (hblock : StackBlock t stack)
    (hcontext : ∀ x, (contextExtent t).Holds x →
      memory x = taskInitStack text t stack entry before x)
    (hwords : ∀ x, (preparedWords stack).Holds x →
      memory x = taskInitStack text t stack entry before x) :
    Prepared text t stack entry memory := by
  have hfresh := fresh_taskInitStack text before entry hblock.record_le hblock.stack_lt hblock.apart
  have hlow := le_stackTop stack
  have hword (offset : ℕ) (hoffset : 8 ≤ offset ∧ offset ≤ 32) :
      Extent.Within ⟨stackTop stack - offset, 8⟩ (preparedWords stack) := by
    simp only [Extent.Within, Extent.stop]
    omega
  constructor
  · rw [load64_of_agree hcontext (field_within t .rsp), hfresh.rsp]
  · rw [load64_of_agree hwords (hword 32 (by decide)), hfresh.trampoline]
  · rw [load64_of_agree hwords (hword 24 (by decide)), hfresh.entryWord]
  · rw [load64_of_agree hwords (hword 16 (by decide)), hfresh.taskWord]
  · rw [load64_of_agree hwords (hword 8 (by decide)), hfresh.exitWord]

/-- `task_init` leaves the flags in the context as they were. -/
theorem contextTrapFlag_of_agree (hblock : StackBlock t stack)
    (hcontext : ∀ x, (contextExtent t).Holds x →
      memory x = taskInitStack text t stack entry before x) :
    contextTrapFlag memory t = contextTrapFlag before t := by
  have hlow := le_stackTop stack
  have hhigh := stackTop_le stack
  have hfield : field .rsp = 144 := rfl
  have hflags : taskContext + contextRflags = 152 := rfl
  have hapart := hblock.apart
  simp only [Extent.Apart, Extent.stop, taskSize] at hapart
  rw [contextTrapFlag, load64_of_agree hcontext (rflags_within t), contextTrapFlag, hflags]
  simp only [taskInitStack, hfield]
  rw [load64_store64_of_apart (by omega), load64_store64_of_apart (by omega),
    load64_store64_of_apart (by omega), load64_store64_of_apart (by omega),
    load64_store64_of_apart (by omega), load64_store64_of_apart (by omega),
    load64_store64_of_apart (by omega)]

/-- A word stored outside of the context and the prepared words leaves the task ready. -/
theorem Prepared.store64 {value : ℕ} (h : Prepared text t stack entry memory)
    (hrecord : Extent.Apart (contextExtent t) ⟨below, 16⟩)
    (hstack : Extent.Apart (preparedWords stack) ⟨below, 16⟩) :
    Prepared text t stack entry (store64 memory below value) := by
  have hlow := le_stackTop stack
  simp only [Extent.Apart, Extent.stop] at hstack
  constructor
  · rw [load64_context (le_field .rsp) ((field_add_le .rsp).trans (by norm_num)) hrecord
      (Or.inl rfl), h.rsp]
  · rw [load64_store64_of_apart (by omega), h.trampoline]
  · rw [load64_store64_of_apart (by omega), h.entryWord]
  · rw [load64_store64_of_apart (by omega), h.taskWord]
  · rw [load64_store64_of_apart (by omega), h.exitWord]

/-! ## From `task_trampoline` to the entry function -/

theorem exec_pop_rsp {target : Register} (htarget : target ≠ .rsp) :
    (exec (.pop target) core).reg .rsp = Word64.add (core.reg .rsp) 8 := by
  rw [exec, setReg_reg_of_ne htarget.symm, Core.drop, setReg_reg_self]

theorem stackWords_taskTrampoline {top : ℕ} (htop : core.reg .rsp = top)
    (hhigh : top + 24 < 2 ^ 64) :
    stackWords taskTrampoline core = [top, top + 8, top + 16, top + 16] := by
  have hfirst : Word64.add top 8 = top + 8 := Word64.add_of_lt (by omega)
  have hsecond : Word64.add (top + 8) 8 = top + 16 := Word64.add_of_lt (by omega)
  have hthird : Word64.add (top + 16) 8 = top + 24 := Word64.add_of_lt hhigh
  have hpush : Word64.sub (top + 24) 8 = top + 16 := Word64.sub_of_le (by omega) hhigh
  simp only [taskTrampoline, stackWords_cons, stackWords_nil, accessed,
    exec_pop_rsp (show Register.rax ≠ .rsp by decide),
    exec_pop_rsp (show Register.rdi ≠ .rsp by decide),
    exec_pop_rsp (show Register.rdx ≠ .rsp by decide), htop, hfirst, hsecond, hthird, hpush,
    List.cons_append, List.nil_append, List.append_nil]

/-- With the stack pointer behind the address of `task_trampoline`, it leads to the entry
function. -/
theorem launches_of_prepared (hblock : StackBlock t stack)
    (hprepared : Prepared text t stack entry core.memory)
    (hrip : core.rip = text.address .taskTrampoline)
    (htop : core.reg .rsp = stackTop stack - 24) : Launches text t stack entry core := by
  have hlow := le_stackTop stack
  have hhigh := stackTop_le stack
  have hbound := hblock.stack_lt
  have htask : stackTop stack - 24 + 8 = stackTop stack - 16 := by omega
  have hexit : stackTop stack - 24 + 16 = stackTop stack - 8 := by omega
  have hjumped := run_taskTrampoline htop (by omega)
  have hrsp : (run taskTrampoline core).reg .rsp = stackTop stack - 8 := hjumped.rsp.trans hexit
  have htopWord : (run taskTrampoline core).top = text.address .taskExit := by
    rw [Core.top, hrsp, hjumped.memory, hexit, hprepared.exitWord]
    exact load64_store64_same (text.word _)
  refine ⟨hrip, ⟨hjumped.rip.trans hprepared.entryWord, ?_, htopWord, ?_, ?_,
    fun leaving hleaving hword ↦ ?_⟩, ?_⟩
  · rw [hjumped.rdi, htask]
    exact hprepared.taskWord
  · rw [hrsp]
    unfold stackTop at hlow ⊢
    omega
  · rw [hrsp]
    simp only [Extent.Within, Extent.stop]
    omega
  · exact hword.trans htopWord
  · rw [InBlock, stackWords_taskTrampoline htop (by omega)]
    simp only [List.forall_mem_cons, Extent.Within, Extent.stop]
    refine ⟨by omega, by omega, by omega, by omega, by simp⟩

theorem stackWords_taskRun {top : ℕ} (hrdi : core.reg .rdi = top) :
    stackWords taskRun core = [top] := by
  have hrsp : (exec (.mov .rdi .rsp) core).reg .rsp = top := by
    rw [exec, setReg_reg_self, hrdi]
  simp only [taskRun, stackWords_cons, stackWords_nil, accessed, hrsp, List.nil_append,
    List.append_nil]

/-- The flags go over the stack. -/
theorem stackWords_loadFlags {offset : ℕ} (htop : core.reg .rsp = below + 8)
    (hhigh : below + 8 < 2 ^ 64) :
    stackWords [.pushMemory offset .rdi, .popfq] core = [below, below] := by
  have hsub : Word64.sub (core.reg .rsp) 8 = below := by
    rw [htop, Word64.sub_of_le (Nat.le_add_left 8 below) hhigh, Nat.add_sub_cancel]
  have hpush {value : ℕ} : (core.pushWord value).reg .rsp = below := by
    rw [pushWord_eq htop hhigh, withStack_rsp]
  rw [stackWords_cons, accessed, hsub, exec, stackWords_cons, accessed, hpush, stackWords_nil]
  rfl

/-- The address to leave for is found on the loaded stack. -/
theorem stackWords_loadStack {stackOffset rdiOffset stackPointer : ℕ}
    (hbound : core.reg .rdi + stackOffset < 2 ^ 64)
    (hstack : load64 core.memory (core.reg .rdi + stackOffset) = stackPointer) :
    stackWords [.load stackOffset .rdi .rsp, .load rdiOffset .rdi .rdi, .ret] core =
      [stackPointer] := by
  have hrsp {value : ℕ} : ((core.setReg .rsp stackPointer).setReg .rdi value).reg .rsp =
      stackPointer := by
    simp
  rw [stackWords_cons, accessed, exec_load rfl hbound, hstack, stackWords_cons, accessed, exec,
    stackWords_cons, accessed, hrsp, stackWords_nil]
  rfl

/-- The last instructions of `restore_context` push and pop the flags, and leave through the stack
pointer in the context. -/
theorem stackWords_restoreLast (hrdi : core.reg .rdi = t) (htop : core.reg .rsp = below + 8)
    (hhigh : below + 8 < 2 ^ 64) (hbound : t + taskSize ≤ 2 ^ 64)
    (hapart : Extent.Apart (contextExtent t) ⟨below, 16⟩) :
    stackWords restoreLast core = [below, below, load64 core.memory (t + field .rsp)] := by
  have hsplit : restoreLast =
      [Instruction.pushMemory (taskContext + contextRflags) .rdi, .popfq] ++
        [Instruction.load (field .rsp) .rdi .rsp, .load (field .rdi) .rdi .rdi, .ret] := rfl
  have hflagsBound : t + (taskContext + contextRflags) < 2 ^ 64 := by
    unfold taskSize at hbound
    unfold taskContext contextRflags
    omega
  have hfieldBound : t + field .rsp < 2 ^ 64 := by
    have hle := field_add_le .rsp
    unfold taskSize at hbound
    omega
  have hflags := run_loadFlags htop hhigh (by rw [hrdi]) hflagsBound rfl
  rw [hsplit, stackWords_append, stackWords_loadFlags htop hhigh]
  generalize run [.pushMemory (taskContext + contextRflags) .rdi, .popfq] core = flagged at hflags ⊢
  have hflaggedRdi : flagged.reg .rdi = t := (hflags.reg .rdi nofun).trans hrdi
  have hstack : load64 flagged.memory (flagged.reg .rdi + field .rsp) =
      load64 core.memory (t + field .rsp) := by
    rw [hflaggedRdi, hflags.memory]
    exact load64_context (le_field .rsp) ((field_add_le .rsp).trans (by norm_num)) hapart
      (Or.inl rfl)
  rw [stackWords_loadStack (by rwa [hflaggedRdi]) hstack]
  rfl

/-- The stack words of `restore_context`. -/
theorem stackWords_restoreContext (hrdi : core.reg .rdi = t) (htop : core.reg .rsp = below + 8)
    (hhigh : below + 8 < 2 ^ 64) (hbound : t + taskSize ≤ 2 ^ 64)
    (hapart : Extent.Apart (contextExtent t) ⟨below, 16⟩) :
    stackWords restoreContext core = [below, below, load64 core.memory (t + field .rsp)] := by
  have hkept (r : Register) (hr : r ∉ loadedFirst) :
      (run (loadFields .rdi (fields loadedFirst)) core).reg r = core.reg r :=
    run_loadFields_of_not_mem core .rdi (by rwa [fields_fst])
  have hmemory : (run (loadFields .rdi (fields loadedFirst)) core).memory = core.memory := by
    rw [run_loadFields]
  rw [restoreContext, stackWords_append, stackWords_loadFields, List.nil_append,
    stackWords_restoreLast ((hkept .rdi (by decide)).trans hrdi)
      ((hkept .rsp (by decide)).trans htop) hhigh hbound hapart, hmemory]

/-! ## Debug exceptions on the way -/

theorem taskTrampoline_ne_popfq : ∀ instruction ∈ taskTrampoline, instruction ≠ .popfq := by
  simp [taskTrampoline]

theorem interrupted_taskRun :
    Interrupted (taskRun ++ taskTrampoline) core ↔ core.trapFlag = true := by
  apply interrupted_iff
  · simp [taskRun]
  · simp [taskRun, taskTrampoline]

/-- An exception comes if the trap flag is set before `restore_context`, or behind `popfq` if it is
set in the context. -/
theorem interrupted_restoreContext (hrdi : core.reg .rdi = t) (htop : core.reg .rsp = below + 8)
    (hhigh : below + 16 < 2 ^ 64) (hbound : t + taskSize ≤ 2 ^ 64)
    (hapart : Extent.Apart (contextExtent t) ⟨below, 16⟩)
    (hstack : load64 core.memory (t + field .rsp) + 8 < 2 ^ 64) :
    Interrupted (restoreContext ++ taskTrampoline) core ↔
      core.trapFlag = true ∨ contextTrapFlag core.memory t = true := by
  set loads := loadFields .rdi (fields loadedFirst) ++
    [Instruction.pushMemory (taskContext + contextRflags) .rdi] with hloads
  set leaves := [Instruction.load (field .rsp) .rdi .rsp, .load (field .rdi) .rdi .rdi, .ret]
    with hleaves
  have hsplit : restoreContext = loads ++ [.popfq] ++ leaves := by
    simp [hloads, hleaves, restoreContext, restoreLast]
  have hloadsKeep : ∀ instruction ∈ loads, instruction ≠ .popfq := by
    rw [hloads, List.forall_mem_append, List.forall_mem_singleton]
    exact ⟨loadFields_ne_popfq, by simp⟩
  have hleavesKeep : ∀ instruction ∈ leaves, instruction ≠ .popfq := by
    simp [hleaves]
  have hbehind : ∀ instruction ∈ leaves ++ taskTrampoline, instruction ≠ .popfq := by
    rw [List.forall_mem_append]
    exact ⟨hleavesKeep, taskTrampoline_ne_popfq⟩
  have hrestored : Restored core t below _ (run restoreContext core) :=
    run_restoreContext hrdi htop hhigh hbound hapart hstack
  have hflags : (run (loads ++ [.popfq]) core).trapFlag = contextTrapFlag core.memory t := by
    have hrflags := hrestored.rflags
    rw [hsplit, run_append, run_rflags hleavesKeep] at hrflags
    rw [Core.trapFlag, hrflags, testBit_flagsOf (i := 8) rfl rfl, contextTrapFlag]
  rw [hsplit, List.append_assoc, interrupted_append, interrupted_concat hloadsKeep,
    interrupted_iff (by simp [hleaves]) hbehind, hflags]

theorem launches_of_taskRun (hblock : StackBlock t stack)
    (hprepared : Prepared text t stack entry core.memory)
    (hrdi : core.reg .rdi = load64 core.memory (t + field .rsp)) :
    Launches text t stack entry (run taskRun core) ∧ InBlock stack (stackWords taskRun core) := by
  have hlow := le_stackTop stack
  have hhigh := stackTop_le stack
  have hbound := hblock.stack_lt
  rw [hprepared.rsp] at hrdi
  have hlaunched := run_taskRun hrdi (by omega)
  have hrsp : (run taskRun core).reg .rsp = stackTop stack - 24 := by
    rw [hlaunched.rsp]
    omega
  constructor
  · refine launches_of_prepared hblock ?_ (hlaunched.rip.trans hprepared.trampoline) hrsp
    rw [hlaunched.memory]
    exact hprepared
  · rw [InBlock, stackWords_taskRun hrdi, List.forall_mem_singleton]
    simp only [Extent.Within, Extent.stop]
    omega

theorem launches_of_restoreContext (hblock : StackBlock t stack)
    (hprepared : Prepared text t stack entry core.memory) (hrdi : core.reg .rdi = t)
    (htop : core.reg .rsp = below + 8) (hhigh : below + 16 < 2 ^ 64)
    (hrecord : Extent.Apart (contextExtent t) ⟨below, 16⟩)
    (hstack : Extent.Apart (preparedWords stack) ⟨below, 16⟩) :
    Launches text t stack entry (run restoreContext core) ∧
      ∃ top, stackWords restoreContext core = [below, below, top] ∧ InBlock stack [top] := by
  have hlow := le_stackTop stack
  have hend := stackTop_le stack
  have hbound := hblock.stack_lt
  have hrestored : Restored core t below _ (run restoreContext core) :=
    run_restoreContext hrdi htop hhigh hblock.record_le hrecord (by rw [hprepared.rsp]; omega)
  have hmemory := hrestored.memory
  rw [store64_load64] at hmemory
  have hrsp : (run restoreContext core).reg .rsp = stackTop stack - 24 := by
    rw [hrestored.rsp, hprepared.rsp]
    omega
  have hrip : (run restoreContext core).rip = text.address .taskTrampoline := by
    simp only [Extent.Apart, Extent.stop] at hstack
    rw [hrestored.rip, hmemory, hprepared.rsp, load64_store64_of_apart (by omega),
      hprepared.trampoline]
  refine ⟨launches_of_prepared hblock ?_ hrip hrsp, _,
    stackWords_restoreContext hrdi htop (by omega) hblock.record_le hrecord, ?_⟩
  · rw [hmemory]
    exact hprepared.store64 hrecord hstack
  · rw [InBlock, List.forall_mem_singleton, hprepared.rsp]
    simp only [Extent.Within, Extent.stop]
    omega

/-- `task_run` leads to the entry function unless the trap flag is set. -/
theorem runEnters_iff (hblock : StackBlock t stack)
    (hprepared : Prepared text t stack entry core.memory)
    (hrdi : core.reg .rdi = load64 core.memory (t + field .rsp)) :
    RunEnters text t stack entry core ↔ core.trapFlag = false := by
  rw [← Bool.not_eq_true, ← interrupted_taskRun]
  constructor
  · intro henters
    exact henters.uninterrupted
  · intro huninterrupted
    obtain ⟨hlaunches, hwords⟩ := launches_of_taskRun hblock hprepared hrdi
    exact ⟨huninterrupted, hlaunches, hwords⟩

/-- `restore_context` leads to the entry function unless the trap flag is set, on the core or in
the context. -/
theorem restoreEnters_iff (hblock : StackBlock t stack)
    (hprepared : Prepared text t stack entry core.memory) (hrdi : core.reg .rdi = t)
    (htop : core.reg .rsp = below + 8) (hhigh : below + 16 < 2 ^ 64)
    (hrecord : Extent.Apart (contextExtent t) ⟨below, 16⟩)
    (hstack : Extent.Apart (preparedWords stack) ⟨below, 16⟩) :
    RestoreEnters text t stack entry below core ↔
      core.trapFlag = false ∧ contextTrapFlag core.memory t = false := by
  have hrsp : load64 core.memory (t + field .rsp) + 8 < 2 ^ 64 := by
    have hend := stackTop_le stack
    have hbound := hblock.stack_lt
    rw [hprepared.rsp]
    omega
  rw [← Bool.not_eq_true, ← Bool.not_eq_true, ← not_or,
    ← interrupted_restoreContext hrdi htop hhigh hblock.record_le hrecord hrsp]
  constructor
  · intro henters
    exact henters.uninterrupted
  · intro huninterrupted
    obtain ⟨hlaunches, hwords⟩ :=
      launches_of_restoreContext hblock hprepared hrdi htop hhigh hrecord hstack
    exact ⟨huninterrupted, hlaunches, hwords⟩

/-- A live block of the size of a page is a stack for every record in another live block. -/
theorem stackBlock_of_live {mapping : Mapping} {config : HeapConfig} {heap : Layout}
    {block record : Block} (h : Serves mapping maximumSize config heap)
    (hlive : block ∈ config.live) (hsize : block.size = 4096) (hrecord : record ∈ config.live)
    (hne : record ≠ block) (hwithin : Extent.Within ⟨t, taskSize⟩ record.payload) :
    StackBlock t block.pointer := by
  have hlarge : block ∈ heap.large :=
    h.represents.mem_large_iff.mpr ⟨(h.live_iff block).mp hlive, by omega⟩
  have hpointer := (h.represents.large block hlarge).pointer_ge
  have hend := (h.represents.large_facts hlarge).2.2
  have hcount : Kernel.frameCounts block.size = 2 := by
    rw [hsize]
    exact frameCounts_of_lt (by norm_num)
  have hpayload : block.payload = ⟨block.pointer, 4096⟩ := by rw [Block.payload, hsize]
  refine ⟨?_, by omega, ?_⟩
  · exact hwithin.2.trans (h.payload_stop_le maximumSize_lt hrecord)
  · rw [← hpayload]
    exact (h.payloads_apart maximumSize_lt hrecord hlive hne).mono_left hwithin

/-- What was prepared for the first dispatch of a task leads to its entry function, on both paths,
unless the trap flag is set. -/
theorem firstDispatch (hblock : StackBlock t stack) : FirstDispatch text t stack entry before where
  written x hx := by
    by_contra hout
    rw [not_or] at hout
    exact hx (taskInitStack_of_outside hout.1 hout.2)
  restored core below hkept hrdi htop hhigh hrecord hstack := by
    rw [← contextTrapFlag_of_agree hblock hkept.1]
    exact restoreEnters_iff hblock (prepared_of_agree hblock hkept.1 hkept.2) hrdi htop hhigh
      hrecord hstack
  launched core hkept hrdi :=
    runEnters_iff hblock (prepared_of_agree hblock hkept.1 hkept.2) hrdi

end Launch

end SideHOS.Tasks.Switch
