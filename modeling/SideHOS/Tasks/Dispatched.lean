import SideHOS.Tasks.Switch
import SideHOS.Transition.Run

/-!
# Each dequeued task is entered once

`save_context` returns once, and the stack pointer it saves is the address of its own return
address.  The call of `restore_context` that follows has the same stack pointer, so that it writes
its return address in the same place.  When `task_exit` restores the idle task, the processor goes
on after the later call, in the next iteration of the loop, and the task is not dispatched again.

The stages of a dispatch are the labels of the code.  Each stage says where the stack pointer is,
what the context and the stack of the idle task hold, and which dequeued task is still to be
entered; each step leads from one stage to the next.
-/

namespace SideHOS.Tasks.Dispatched

open Kernel.Context Machine Machine.ByteMemory Machine.X86 Switch Transition

variable {Entry : Type}

/-- The registers, besides the stack pointer, that a function keeps for its caller. -/
def preserved : List Register := [.rbx, .rbp, .r12, .r13, .r14, .r15]

/-- The stack pointer of `idle_task_entry` at its calls. -/
def idleRsp (text : Text Entry) (idleStack : ℕ) : ℕ := stackTop idleStack - 8 - text.idleFrame

structure IdlePlaced (idle idleStack : ℕ) : Prop where
  recordBound : idle + taskSize < 2 ^ 64
  stackBound : idleStack + 4096 < 2 ^ 64
  apart : Extent.Apart ⟨idle, taskSize⟩ ⟨idleStack, 4096⟩

/-- The record and the stack of a task, outside of those of the idle task. -/
structure Elsewhere (idle idleStack t stack : ℕ) : Prop where
  recordBound : t + taskSize < 2 ^ 64
  stackBound : stack + 4096 < 2 ^ 64
  recordRecord : Extent.Apart ⟨t, taskSize⟩ ⟨idle, taskSize⟩
  recordStack : Extent.Apart ⟨t, taskSize⟩ ⟨idleStack, 4096⟩
  stackRecord : Extent.Apart ⟨stack, 4096⟩ ⟨idle, taskSize⟩
  stackStack : Extent.Apart ⟨stack, 4096⟩ ⟨idleStack, 4096⟩

/-- The calls of `idle_task_entry` have room on its stack. -/
theorem idleRsp_room (text : Text Entry) (idleStack : ℕ) :
    idleStack + 32 ≤ idleRsp text idleStack ∧ idleRsp text idleStack + 8 ≤ idleStack + 4096 := by
  have hlow := le_stackTop idleStack
  have hhigh := stackTop_le idleStack
  have hframe := text.idleFrame_le
  unfold idleRsp
  omega

/-- The tasks dequeued and entered so far, each with the address of its entry function, and the
registers at the last call of `save_context`. -/
@[ext]
structure History where
  dequeued : List (ℕ × ℕ)
  entered : List (ℕ × ℕ)
  atSave : Option (Register → ℕ)

def observe (step : Taken Processor Event) (history : History) : History :=
  match step.label with
  | .dequeue task =>
      { history with
        dequeued := history.dequeued ++ [(task, load64 step.after.core.memory (task + 8))] }
  | .enter function task =>
      { history with entered := history.entered ++ [(task, function)] }
  | .save => { history with atSave := some step.before.core.reg }
  | _ => history

def history (taken : List (Taken Processor Event)) : History :=
  taken.foldl (fun history step ↦ observe step history) ⟨[], [], none⟩

theorem history_concat (taken : List (Taken Processor Event)) (step : Taken Processor Event) :
    history (taken ++ [step]) = observe step (history taken) := by
  simp [history]

/-! ## Stages -/

section Stages

variable (text : Text Entry) (idle idleStack : ℕ) (past : History) (memory : Memory)

/-- The context of the idle task holds the registers of the last call of `save_context`, with the
stack pointer at its return address. -/
def Kept : Prop :=
  ∃ registers, past.atSave = some registers ∧ registers .rsp = idleRsp text idleStack ∧
    (∀ r ∈ preserved, load64 memory (idle + field r) = registers r) ∧
    load64 memory (idle + field .rsp) = idleRsp text idleStack - 8

/-- The idle task waits behind its call of `restore_context`. -/
def Waiting : Prop :=
  Kept text idle idleStack past memory ∧
    load64 memory (idleRsp text idleStack - 8) = text.address .afterRestore

/-- The task with this entry function has been dequeued and not been entered. -/
def Due (t : ℕ) (function : Entry) : Prop :=
  past.dequeued = past.entered ++ [(t, text.address (.entry function))]

/-- A dequeued task on which nothing has run. -/
def Obtained (t : ℕ) : Prop :=
  ∃ stack function, Elsewhere idle idleStack t stack ∧
    Fresh text memory t stack (.entry function) ∧ Due text past t function

def Arriving (processor : Processor) : Prop :=
  ∃ t stack function, Elsewhere idle idleStack t stack ∧
    processor.core.reg .rsp = stackTop stack - 24 ∧
    Fresh text processor.core.memory t stack (.entry function) ∧
    Waiting text idle idleStack past processor.core.memory ∧ Due text past t function

def Entering (processor : Processor) (function : Entry) : Prop :=
  ∃ t stack, Elsewhere idle idleStack t stack ∧ processor.core.reg .rdi = t ∧
    processor.core.reg .rsp = stackTop stack - 8 ∧
    processor.core.top = text.address .taskExit ∧
    Waiting text idle idleStack past processor.core.memory ∧ Due text past t function

/-- What is true of a processor at each place in the code. -/
def StageAt (processor : Processor) : Label Entry → Prop
  | .taskRun =>
      processor.core.gs cpuCurrentTask = idle ∧
        processor.core.reg .rdi = stackTop idleStack - 32 ∧
        Fresh text processor.core.memory idle idleStack .idleTaskEntry ∧
        past.dequeued = past.entered
  | .taskTrampoline =>
      (processor.core.gs cpuCurrentTask = idle ∧
          processor.core.reg .rsp = stackTop idleStack - 24 ∧
          Fresh text processor.core.memory idle idleStack .idleTaskEntry ∧
          past.dequeued = past.entered) ∨
        Arriving text idle idleStack past processor
  | .idleTaskEntry =>
      processor.core.gs cpuCurrentTask = idle ∧
        processor.core.reg .rsp = stackTop idleStack - 8 ∧ past.dequeued = past.entered
  | .idleLoop =>
      processor.core.gs cpuCurrentTask = idle ∧
        processor.core.reg .rsp = idleRsp text idleStack ∧ past.dequeued = past.entered
  | .atSave =>
      processor.core.gs cpuCurrentTask = idle ∧
        processor.core.reg .rsp = idleRsp text idleStack ∧ processor.core.Words ∧
        Obtained text idle idleStack past processor.core.memory processor.t
  | .afterSave =>
      processor.core.reg .rsp = idleRsp text idleStack ∧
        Kept text idle idleStack past processor.core.memory ∧
        Obtained text idle idleStack past processor.core.memory processor.t
  | .atRestore =>
      processor.core.reg .rsp = idleRsp text idleStack ∧ processor.core.reg .rdi = processor.t ∧
        Kept text idle idleStack past processor.core.memory ∧
        Obtained text idle idleStack past processor.core.memory processor.t
  | .entry function => Entering text idle idleStack past processor function
  | .taskExit =>
      ∃ t stack, Elsewhere idle idleStack t stack ∧ processor.core.reg .rsp = stackTop stack ∧
        Waiting text idle idleStack past processor.core.memory ∧ past.dequeued = past.entered
  | .afterRestore =>
      processor.core.gs cpuCurrentTask = idle ∧
        processor.core.reg .rsp = idleRsp text idleStack ∧ past.dequeued = past.entered ∧
        ∃ registers, past.atSave = some registers ∧ registers .rsp = idleRsp text idleStack ∧
          ∀ r ∈ preserved, processor.core.reg r = registers r
  | .exitReturn => False

/-- The processor is at a place in the code, in the stage of this place. -/
def StageInvariant (processor : Processor) : Prop :=
  processor.core.gs cpuIdleTask = idle ∧
    ∃ label, processor.core.rip = text.address label ∧
      StageAt text idle idleStack past processor label

end Stages

/-! ## Memory that other code leaves alone -/

section Agreement

variable {text : Text Entry} {idle idleStack t stack : ℕ} {past : History}
  {before after : Memory} {entry : Label Entry}

theorem Kept.congr (h : Kept text idle idleStack past before)
    (hcontext : ∀ x, (contextExtent idle).Holds x → after x = before x) :
    Kept text idle idleStack past after := by
  obtain ⟨registers, hsave, hrsp, hpreserved, hstack⟩ := h
  refine ⟨registers, hsave, hrsp, fun r hr ↦ ?_, ?_⟩
  · rw [load64_of_agree hcontext (field_within idle r)]
    exact hpreserved r hr
  · rw [load64_of_agree hcontext (field_within idle .rsp)]
    exact hstack

theorem slot_within (text : Text Entry) (idleStack : ℕ) :
    Extent.Within ⟨idleRsp text idleStack - 8, 8⟩ ⟨idleStack, 4096⟩ := by
  have hroom := idleRsp_room text idleStack
  simp only [Extent.Within, Extent.stop]
  omega

theorem Waiting.congr (h : Waiting text idle idleStack past before)
    (hcontext : ∀ x, (contextExtent idle).Holds x → after x = before x)
    (hstack : ∀ x, (Extent.mk idleStack 4096).Holds x → after x = before x) :
    Waiting text idle idleStack past after := by
  refine ⟨h.1.congr hcontext, ?_⟩
  rw [load64_of_agree hstack (slot_within text idleStack)]
  exact h.2

theorem Fresh.congr (h : Fresh text before t stack entry)
    (hrecord : ∀ x, (Extent.mk t taskSize).Holds x → after x = before x)
    (hstack : ∀ x, (Extent.mk stack 4096).Holds x → after x = before x) :
    Fresh text after t stack entry := by
  have hlow := le_stackTop stack
  have hhigh := stackTop_le stack
  have hfield : Extent.Within ⟨t + 8, 8⟩ ⟨t, taskSize⟩ := by
    simp only [Extent.Within, Extent.stop, taskSize]
    omega
  have hword (offset : ℕ) (hoffset : 8 ≤ offset ∧ offset ≤ 32) :
      Extent.Within ⟨stackTop stack - offset, 8⟩ ⟨stack, 4096⟩ := by
    simp only [Extent.Within, Extent.stop]
    omega
  constructor
  · rw [load64_of_agree hrecord hfield]
    exact h.entryField
  · rw [load64_of_agree hrecord ((field_within t .rsp).trans (contextExtent_within t))]
    exact h.rsp
  · rw [load64_of_agree hstack (hword 32 (by decide))]
    exact h.trampoline
  · rw [load64_of_agree hstack (hword 24 (by decide))]
    exact h.entryWord
  · rw [load64_of_agree hstack (hword 16 (by decide))]
    exact h.taskWord
  · rw [load64_of_agree hstack (hword 8 (by decide))]
    exact h.exitWord

/-- Writes to the context and the stack of the idle task leave another task alone. -/
theorem Fresh.elsewhere (h : Fresh text before t stack entry)
    (helsewhere : Elsewhere idle idleStack t stack)
    (hagree : ∀ x, ¬ (Extent.mk idle taskSize).Holds x → ¬ (Extent.mk idleStack 4096).Holds x →
      after x = before x) : Fresh text after t stack entry :=
  Fresh.congr h
    (fun x hx ↦ hagree x (helsewhere.recordRecord.not_holds hx)
      (helsewhere.recordStack.not_holds hx))
    fun x hx ↦ hagree x (helsewhere.stackRecord.not_holds hx) (helsewhere.stackStack.not_holds hx)

end Agreement

/-! ## Steps -/

section Steps

variable {text : Text Entry} {idle idleStack : ℕ} {past : History} {processor : Processor}

/-- The processor is at the place its instruction pointer says. -/
theorem StageInvariant.at (h : StageInvariant text idle idleStack past processor)
    {label : Label Entry} (hrip : processor.core.rip = text.address label) :
    processor.core.gs cpuIdleTask = idle ∧ StageAt text idle idleStack past processor label := by
  obtain ⟨hgs, label', hrip', hstage⟩ := h
  obtain rfl := text.injective (hrip.symm.trans hrip')
  exact ⟨hgs, hstage⟩

theorem idle_ne_current : cpuIdleTask ≠ cpuCurrentTask := by decide

theorem stage_launch (hplaced : IdlePlaced idle idleStack)
    (h : StageAt text idle idleStack past processor .taskRun) :
    (run taskRun processor.core).gs = processor.core.gs ∧
      (run taskRun processor.core).rip = text.address .taskTrampoline ∧
      StageAt text idle idleStack past { processor with core := run taskRun processor.core }
        .taskTrampoline := by
  obtain ⟨hcurrent, hrdi, hfresh, hpast⟩ := h
  have hlow := le_stackTop idleStack
  have hhigh := stackTop_le idleStack
  have hbound := hplaced.stackBound
  have hlaunched := run_taskRun hrdi (by omega)
  refine ⟨hlaunched.gs, hlaunched.rip.trans hfresh.trampoline, Or.inl ⟨?_, ?_, ?_, hpast⟩⟩
  · rw [← hcurrent]
    exact congrFun hlaunched.gs _
  · refine hlaunched.rsp.trans ?_
    omega
  · exact Fresh.congr hfresh (fun x _ ↦ congrFun hlaunched.memory x)
      fun x _ ↦ congrFun hlaunched.memory x

theorem arriving_trampoline (h : Arriving text idle idleStack past processor) :
    (run taskTrampoline processor.core).gs = processor.core.gs ∧ ∃ function,
      (run taskTrampoline processor.core).rip = text.address (.entry function) ∧
      Entering text idle idleStack past
        { processor with core := run taskTrampoline processor.core } function := by
  obtain ⟨t, stack, function, helsewhere, hrsp, hfresh, hwaiting, hdue⟩ := h
  have hlow := le_stackTop stack
  have hhigh := stackTop_le stack
  have hbound := helsewhere.stackBound
  have htask : stackTop stack - 24 + 8 = stackTop stack - 16 := by omega
  have hexit : stackTop stack - 24 + 16 = stackTop stack - 8 := by omega
  have hjumped := run_taskTrampoline hrsp (by omega)
  have hmemory := hjumped.memory
  rw [hexit, hfresh.exitWord] at hmemory
  have hagree (x : ℕ) (hx : ¬ (Extent.mk stack 4096).Holds x) :
      (run taskTrampoline processor.core).memory x = processor.core.memory x := by
    rw [hmemory]
    simp only [Extent.Holds, Extent.stop] at hx
    exact store64_of_outside (by omega)
  refine ⟨hjumped.gs, function, hjumped.rip.trans hfresh.entryWord, t, stack, helsewhere, ?_, ?_,
    ?_, ?_, hdue⟩
  · rw [hjumped.rdi, htask]
    exact hfresh.taskWord
  · exact hjumped.rsp.trans hexit
  · rw [Core.top, hjumped.rsp, hexit, hmemory]
    exact load64_store64_same (text.word _)
  · refine hwaiting.congr (fun x hx ↦ hagree x ?_) fun x hx ↦ hagree x ?_
    · exact helsewhere.stackRecord.symm.not_holds ((contextExtent_within idle).holds hx)
    · exact helsewhere.stackStack.symm.not_holds hx

theorem stage_trampoline (hplaced : IdlePlaced idle idleStack)
    (h : StageAt text idle idleStack past processor .taskTrampoline) :
    (run taskTrampoline processor.core).gs = processor.core.gs ∧
      ∃ label, label ≠ .afterSave ∧
        (run taskTrampoline processor.core).rip = text.address label ∧
        StageAt text idle idleStack past
          { processor with core := run taskTrampoline processor.core } label := by
  rcases h with ⟨hcurrent, hrsp, hfresh, hpast⟩ | harriving
  · have hlow := le_stackTop idleStack
    have hhigh := stackTop_le idleStack
    have hbound := hplaced.stackBound
    have hjumped := run_taskTrampoline hrsp (by omega)
    refine ⟨hjumped.gs, .idleTaskEntry, by simp, hjumped.rip.trans hfresh.entryWord, ?_, ?_, hpast⟩
    · rw [← hcurrent]
      exact congrFun hjumped.gs _
    · refine hjumped.rsp.trans ?_
      omega
  · obtain ⟨hgs, function, hrip, hentering⟩ := arriving_trampoline harriving
    exact ⟨hgs, .entry function, by simp, hrip, hentering⟩

theorem stage_save (hplaced : IdlePlaced idle idleStack)
    (h : StageAt text idle idleStack past processor .atSave) :
    (call (text.address .afterSave) saveContext processor.core).gs = processor.core.gs ∧
      (call (text.address .afterSave) saveContext processor.core).rip = text.address .afterSave ∧
      StageAt text idle idleStack { past with atSave := some processor.core.reg }
        { processor with core := call (text.address .afterSave) saveContext processor.core }
        .afterSave := by
  obtain ⟨hcurrent, hrsp, hwords, stack, function, helsewhere, hfresh, hdue⟩ := h
  have hroom := idleRsp_room text idleStack
  have hbound := hplaced.stackBound
  have htop : processor.core.reg .rsp = idleRsp text idleStack - 32 + 32 := by
    rw [hrsp]
    omega
  have hframe : Extent.Within ⟨idleRsp text idleStack - 32, 32⟩ ⟨idleStack, 4096⟩ := by
    simp only [Extent.Within, Extent.stop]
    omega
  have hapart : Extent.Apart (contextExtent idle) ⟨idleRsp text idleStack - 32, 32⟩ :=
    (hplaced.apart.mono_left (contextExtent_within idle)).mono_right hframe
  have hsaved := call_saveContext hwords hcurrent htop (by omega) hplaced.recordBound.le
    (text.word .afterSave) hapart
  have hslot : idleRsp text idleStack - 32 + 24 = idleRsp text idleStack - 8 := by omega
  refine ⟨hsaved.gs, hsaved.rip, hsaved.rsp.trans hrsp, ⟨processor.core.reg, rfl, hrsp,
    fun r hr ↦ hsaved.context r ?_, hsaved.contextRsp.trans hslot⟩, stack, function, helsewhere, ?_,
    hdue⟩
  · rintro rfl
    revert hr
    decide
  · apply Fresh.elsewhere hfresh helsewhere
    intro x hrecord hstack
    exact hsaved.memory x (fun hx ↦ hrecord ((contextExtent_within idle).holds hx))
      fun hx ↦ hstack (hframe.holds hx)

theorem stage_restore (hplaced : IdlePlaced idle idleStack)
    (h : StageAt text idle idleStack past processor .atRestore) :
    (call (text.address .afterRestore) restoreContext processor.core).gs = processor.core.gs ∧
      (call (text.address .afterRestore) restoreContext processor.core).rip =
        text.address .taskTrampoline ∧
      Arriving text idle idleStack past
        { processor with
          core := call (text.address .afterRestore) restoreContext processor.core } := by
  obtain ⟨hrsp, hrdi, hkept, stack, function, helsewhere, hfresh, hdue⟩ := h
  have hroom := idleRsp_room text idleStack
  have hlow := le_stackTop stack
  have hhigh := stackTop_le stack
  have hbound := hplaced.stackBound
  have hbound' := helsewhere.stackBound
  have htop : processor.core.reg .rsp = idleRsp text idleStack - 16 + 16 := by
    rw [hrsp]
    omega
  have hframe : Extent.Within ⟨idleRsp text idleStack - 16, 16⟩ ⟨idleStack, 4096⟩ := by
    simp only [Extent.Within, Extent.stop]
    omega
  have hapart : Extent.Apart (contextExtent processor.t) ⟨idleRsp text idleStack - 16, 16⟩ :=
    (helsewhere.recordStack.mono_left (contextExtent_within processor.t)).mono_right hframe
  have hstack : load64 processor.core.memory (processor.t + field .rsp) + 8 < 2 ^ 64 := by
    rw [hfresh.rsp]
    omega
  have hrestored : Restored processor.core processor.t (idleRsp text idleStack - 16)
      (text.address .afterRestore) _ :=
    call_restoreContext hrdi htop (by omega) helsewhere.recordBound.le hapart hstack
  generalize call (text.address .afterRestore) restoreContext processor.core = after
    at hrestored ⊢
  have hslot : idleRsp text idleStack - 16 + 8 = idleRsp text idleStack - 8 := by omega
  have hmemory := hrestored.memory
  rw [hslot] at hmemory
  have hagree (x : ℕ) (hx : ¬ (Extent.mk idleStack 4096).Holds x) :
      after.memory x = processor.core.memory x := by
    rw [hmemory]
    simp only [Extent.Holds, Extent.stop] at hx
    rw [store64_of_outside (by omega), store64_of_outside (by omega)]
  have hfreshAfter : Fresh text after.memory processor.t stack (.entry function) :=
    Fresh.elsewhere hfresh helsewhere fun x _ hx ↦ hagree x hx
  refine ⟨hrestored.gs, ?_, processor.t, stack, function, helsewhere, ?_, hfreshAfter,
    ⟨hkept.congr fun x hx ↦ hagree x ?_, ?_⟩, hdue⟩
  · rw [hrestored.rip, hfresh.rsp]
    exact hfreshAfter.trampoline
  · refine hrestored.rsp.trans ?_
    rw [hfresh.rsp]
    omega
  · exact hplaced.apart.not_holds ((contextExtent_within idle).holds hx)
  · change load64 after.memory _ = _
    rw [hmemory, load64_store64_of_apart (by omega), load64_store64_same (text.word _)]

theorem stage_exit (hplaced : IdlePlaced idle idleStack) {middle : Core}
    (hidle : processor.core.gs cpuIdleTask = idle) (hcall : ExitCall text processor.core middle)
    (h : StageAt text idle idleStack past processor .taskExit) :
    (call (text.address .exitReturn) restoreContext middle).gs cpuIdleTask = idle ∧
      (call (text.address .exitReturn) restoreContext middle).rip = text.address .afterRestore ∧
      StageAt text idle idleStack past
        { processor with core := call (text.address .exitReturn) restoreContext middle }
        .afterRestore := by
  obtain ⟨t, stack, helsewhere, hrsp, hwaiting, hpast⟩ := h
  have hroom := idleRsp_room text idleStack
  have hlow := le_stackTop stack
  have hhigh := stackTop_le stack
  have hframe := text.exitFrame_le
  have hbound := hplaced.stackBound
  have hbound' := helsewhere.stackBound
  set bottom := stackTop stack - text.exitFrame - 16 with hbottom
  have htop : middle.reg .rsp = bottom + 16 := by
    rw [hcall.rsp, hrsp]
    omega
  have hwithin : Extent.Within ⟨bottom, 16⟩ ⟨stack, 4096⟩ := by
    simp only [Extent.Within, Extent.stop]
    omega
  have hapart : Extent.Apart (contextExtent idle) ⟨bottom, 16⟩ :=
    (helsewhere.stackRecord.symm.mono_left (contextExtent_within idle)).mono_right hwithin
  have hmiddle (x : ℕ) (hx : ¬ (Extent.mk stack 4096).Holds x) :
      middle.memory x = processor.core.memory x := by
    apply hcall.memory
    rw [hrsp]
    simp only [Extent.Holds, Extent.stop] at hx
    omega
  have houtside (x : ℕ) (hx : (contextExtent idle).Holds x) : ¬ (Extent.mk stack 4096).Holds x :=
    helsewhere.stackRecord.symm.not_holds ((contextExtent_within idle).holds hx)
  have houtside' (x : ℕ) (hx : (Extent.mk idleStack 4096).Holds x) :
      ¬ (Extent.mk stack 4096).Holds x := helsewhere.stackStack.symm.not_holds hx
  have hwaitingMiddle := hwaiting.congr (fun x hx ↦ hmiddle x (houtside x hx))
    fun x hx ↦ hmiddle x (houtside' x hx)
  obtain ⟨⟨registers, hsave, hregisters, hpreserved, hstackWord⟩, -⟩ := hwaitingMiddle
  have hrdi : middle.reg .rdi = idle := hcall.rdi.trans hidle
  have hstack : load64 middle.memory (idle + field .rsp) + 8 < 2 ^ 64 := by
    rw [hstackWord]
    omega
  have hrestored : Restored middle idle bottom (text.address .exitReturn) _ :=
    call_restoreContext hrdi htop (by omega) hplaced.recordBound.le hapart hstack
  generalize call (text.address .exitReturn) restoreContext middle = after at hrestored ⊢
  have hagree (x : ℕ) (hx : ¬ (Extent.mk stack 4096).Holds x) :
      after.memory x = processor.core.memory x := by
    rw [← hmiddle x hx, hrestored.memory]
    simp only [Extent.Holds, Extent.stop] at hx
    rw [store64_of_outside (by omega), store64_of_outside (by omega)]
  have hwaitingAfter := hwaiting.congr (fun x hx ↦ hagree x (houtside x hx))
    fun x hx ↦ hagree x (houtside' x hx)
  refine ⟨?_, ?_, ?_, ?_, hpast, registers, hsave, hregisters, fun r hr ↦ ?_⟩
  · rw [hrestored.gs, hcall.gs, Function.update_of_ne idle_ne_current]
    exact hidle
  · rw [hrestored.rip, hstackWord]
    exact hwaitingAfter.2
  · rw [hrestored.gs, hcall.gs, Function.update_self]
    exact hidle
  · refine hrestored.rsp.trans ?_
    rw [hstackWord]
    omega
  · have hne : r ≠ .rsp := by
      rintro rfl
      revert hr
      decide
    exact (hrestored.reg r hne).trans (hpreserved r hr)

end Steps

/-! ## Runs -/

section Runs

variable {text : Text Entry} {idle idleStack : ℕ} {past : History} {start final : Processor}
  {taken : List (Taken Processor Event)}

/-- A step that dequeues a task finds it fresh, and outside of the idle task. -/
def OrdinaryDequeue (text : Text Entry) (idle idleStack : ℕ) (step : Taken Processor Event) :
    Prop :=
  ∀ task, step.label = .dequeue task → ∃ stack function,
    Elsewhere idle idleStack task stack ∧
      Fresh text step.after.core.memory task stack (.entry function)

/-- An entry function writes neither the stack nor the saved context of the idle task. -/
def Confined (idle idleStack : ℕ) (step : Taken Processor Event) : Prop :=
  ∀ function task, step.label = .enter function task → ∀ x,
    (contextExtent idle).Holds x ∨ (Extent.mk idleStack 4096).Holds x →
      step.after.core.memory x = step.before.core.memory x

/-- A processor at `task_run(idle_task->context.rsp)` in `ap_entry`. -/
structure Starting (text : Text Entry) (idle idleStack : ℕ) (processor : Processor) : Prop where
  rip : processor.core.rip = text.address .taskRun
  rdi : processor.core.reg .rdi = load64 processor.core.memory (idle + field .rsp)
  idleTask : processor.core.gs cpuIdleTask = idle
  currentTask : processor.core.gs cpuCurrentTask = idle
  fresh : Fresh text processor.core.memory idle idleStack .idleTaskEntry

theorem stage_starting (h : Starting text idle idleStack start) :
    StageInvariant text idle idleStack (history []) start :=
  ⟨h.idleTask, .taskRun, h.rip, h.currentTask, h.rdi.trans h.fresh.rsp, h.fresh, rfl⟩

/-- Each step leads from a stage to the next. -/
theorem stage_step (hplaced : IdlePlaced idle idleStack) {before after : Processor} {event : Event}
    (hstep : ProcessorStep text before event after)
    (hordinary : OrdinaryDequeue text idle idleStack ⟨before, event, after⟩)
    (hconfined : Confined idle idleStack ⟨before, event, after⟩)
    (h : StageInvariant text idle idleStack past before) :
    StageInvariant text idle idleStack (observe ⟨before, event, after⟩ past) after := by
  cases hstep with
  | launch hrip =>
    obtain ⟨hgs, hstage⟩ := h.at hrip
    obtain ⟨hgs', hrip', hstage'⟩ := stage_launch hplaced hstage
    exact ⟨(congrFun hgs' _).trans hgs, .taskTrampoline, hrip', hstage'⟩
  | trampoline hrip =>
    obtain ⟨hgs, hstage⟩ := h.at hrip
    obtain ⟨hgs', label, -, hrip', hstage'⟩ := stage_trampoline hplaced hstage
    exact ⟨(congrFun hgs' _).trans hgs, label, hrip', hstage'⟩
  | prologue core hrip hnext hrsp hgs' =>
    obtain ⟨hgs, hcurrent, hstack, hpast⟩ := h.at hrip
    refine ⟨(congrFun hgs' _).trans hgs, .idleLoop, hnext, (congrFun hgs' _).trans hcurrent, ?_,
      hpast⟩
    rw [hrsp, hstack]
    rfl
  | again hrip =>
    obtain ⟨hgs, hcurrent, hstack, hpast, -⟩ := h.at hrip
    exact ⟨hgs, .idleLoop, rfl, hcurrent, hstack, hpast⟩
  | dequeue core task hwords hrip hnext hrsp hgs' =>
    obtain ⟨hgs, hcurrent, hstack, hpast⟩ := h.at hrip
    obtain ⟨stack, function, helsewhere, hfresh⟩ := hordinary task rfl
    refine ⟨(congrFun hgs' _).trans hgs, .atSave, hnext, (congrFun hgs' _).trans hcurrent,
      hrsp.trans hstack, hwords, stack, function, helsewhere, hfresh, ?_⟩
    have hentry := hfresh.entryField
    dsimp only at hentry
    simp only [Due, observe, hpast, hentry]
  | save hrip =>
    obtain ⟨hgs, hstage⟩ := h.at hrip
    obtain ⟨hgs', hrip', hstage'⟩ := stage_save hplaced hstage
    exact ⟨(congrFun hgs' _).trans hgs, .afterSave, hrip', hstage'⟩
  | switch core hrip hnext hrsp hrdi hgs' hmemory =>
    obtain ⟨hgs, hstack, hkept, hobtained⟩ := h.at hrip
    refine ⟨?_, .atRestore, hnext, hrsp.trans hstack, hrdi, ?_, ?_⟩
    · rw [hgs', Function.update_of_ne idle_ne_current]
      exact hgs
    · rwa [hmemory]
    · rwa [hmemory]
  | restore hrip =>
    obtain ⟨hgs, hstage⟩ := h.at hrip
    obtain ⟨hgs', hrip', harriving⟩ := stage_restore hplaced hstage
    exact ⟨(congrFun hgs' _).trans hgs, .taskTrampoline, hrip', Or.inr harriving⟩
  | enter core function hrip hnext hrsp hgs' =>
    obtain ⟨hgs, t, stack, helsewhere, hrdi, hstack, hexit, hwaiting, hdue⟩ := h.at hrip
    have hlow := le_stackTop stack
    have hhigh := stackTop_le stack
    have hbound := helsewhere.stackBound
    refine ⟨(congrFun hgs' _).trans hgs, .taskExit, hnext.trans hexit, t, stack, helsewhere, ?_, ?_,
      ?_⟩
    · rw [hrsp, hstack, Word64.add_of_lt (by omega)]
      omega
    · exact hwaiting.congr (fun x hx ↦ hconfined _ _ rfl x (Or.inl hx))
        fun x hx ↦ hconfined _ _ rfl x (Or.inr hx)
    · simp only [observe, hrdi]
      exact hdue
  | exit middle hrip hcall =>
    obtain ⟨hgs, hstage⟩ := h.at hrip
    obtain ⟨hgs', hrip', hstage'⟩ := stage_exit hplaced hgs hcall hstage
    exact ⟨hgs', .afterRestore, hrip', hstage'⟩

theorem stage_of_run (hplaced : IdlePlaced idle idleStack)
    (hstart : Starting text idle idleStack start)
    (hrun : Run (ProcessorStep text) start taken final)
    (hordinary : ∀ step ∈ taken, OrdinaryDequeue text idle idleStack step)
    (hconfined : ∀ step ∈ taken, Confined idle idleStack step) :
    StageInvariant text idle idleStack (history taken) final := by
  induction hrun with
  | nil => exact stage_starting hstart
  | @snoc taken before label after earlier last ih =>
    rw [history_concat]
    have hlast : (⟨before, label, after⟩ : Taken Processor Event) ∈
        taken ++ [⟨before, label, after⟩] := List.mem_append_right _ (List.mem_singleton_self _)
    exact stage_step hplaced last (hordinary _ hlast) (hconfined _ hlast)
      (ih (fun step hstep ↦ hordinary step (List.mem_append_left _ hstep))
        fun step hstep ↦ hconfined step (List.mem_append_left _ hstep))

/-- At most one dequeued task has not been entered, and none when the processor is in the loop. -/
theorem StageInvariant.entered (h : StageInvariant text idle idleStack past final) :
    ∃ pending, past.dequeued = past.entered ++ pending ∧ pending.length ≤ 1 ∧
      ((final.core.rip = text.address .idleLoop ∨ final.core.rip = text.address .afterRestore) →
        pending = []) := by
  have hloop (hempty : past.dequeued = past.entered) :
      ∃ pending, past.dequeued = past.entered ++ pending ∧ pending.length ≤ 1 ∧
        ((final.core.rip = text.address .idleLoop ∨ final.core.rip = text.address .afterRestore) →
          pending = []) :=
    ⟨[], by rw [hempty, List.append_nil], by simp, fun _ ↦ rfl⟩
  obtain ⟨-, label, hrip, hstage⟩ := h
  have hbusy {t : ℕ} {function : Entry} (hdue : Due text past t function)
      (hlabel : label ≠ .idleLoop ∧ label ≠ .afterRestore) :
      ∃ pending, past.dequeued = past.entered ++ pending ∧ pending.length ≤ 1 ∧
        ((final.core.rip = text.address .idleLoop ∨ final.core.rip = text.address .afterRestore) →
          pending = []) := by
    refine ⟨_, hdue, by simp, fun hplace ↦ ?_⟩
    rw [hrip] at hplace
    rcases hplace with hplace | hplace
    · exact absurd (text.injective hplace) hlabel.1
    · exact absurd (text.injective hplace) hlabel.2
  cases label with
  | taskRun => exact hloop hstage.2.2.2
  | taskTrampoline =>
    rcases hstage with ⟨-, -, -, hpast⟩ | ⟨t, stack, function, -, -, -, -, hdue⟩
    · exact hloop hpast
    · exact hbusy hdue ⟨nofun, nofun⟩
  | idleTaskEntry => exact hloop hstage.2.2
  | idleLoop => exact hloop hstage.2.2
  | atSave =>
    obtain ⟨-, -, -, stack, function, -, -, hdue⟩ := hstage
    exact hbusy hdue ⟨nofun, nofun⟩
  | afterSave =>
    obtain ⟨-, -, stack, function, -, -, hdue⟩ := hstage
    exact hbusy hdue ⟨nofun, nofun⟩
  | atRestore =>
    obtain ⟨-, -, -, stack, function, -, -, hdue⟩ := hstage
    exact hbusy hdue ⟨nofun, nofun⟩
  | entry function =>
    obtain ⟨t, stack, -, -, -, -, -, hdue⟩ := hstage
    exact hbusy hdue ⟨nofun, nofun⟩
  | taskExit =>
    obtain ⟨t, stack, -, -, -, hpast⟩ := hstage
    exact hloop hpast
  | afterRestore => exact hloop hstage.2.2.1
  | exitReturn => exact hstage.elim

/-- Only `save_context` leads behind its call, and `task_exit` leads behind the call of
`restore_context`. -/
theorem StageInvariant.resume (hplaced : IdlePlaced idle idleStack) {before after : Processor}
    {event : Event} (h : StageInvariant text idle idleStack past before)
    (hstep : ProcessorStep text before event after) :
    (event = .exit → after.core.rip = text.address .afterRestore) ∧
      (after.core.rip = text.address .afterSave → event = .save) := by
  have hother {label : Label Entry} (hrip : after.core.rip = text.address label)
      (hlabel : label ≠ .afterSave) : after.core.rip ≠ text.address .afterSave := by
    intro hsave
    exact hlabel (text.injective (hrip.symm.trans hsave))
  cases hstep with
  | launch hrip =>
    obtain ⟨-, hnext, -⟩ := stage_launch hplaced (h.at hrip).2
    exact ⟨nofun, fun hsave ↦ absurd hsave (hother hnext nofun)⟩
  | trampoline hrip =>
    obtain ⟨-, label, hlabel, hnext, -⟩ := stage_trampoline hplaced (h.at hrip).2
    exact ⟨nofun, fun hsave ↦ absurd hsave (hother hnext hlabel)⟩
  | prologue core hrip hnext => exact ⟨nofun, fun hsave ↦ absurd hsave (hother hnext nofun)⟩
  | again hrip => exact ⟨nofun, fun hsave ↦ absurd hsave (hother rfl nofun)⟩
  | dequeue core task hwords hrip hnext =>
    exact ⟨nofun, fun hsave ↦ absurd hsave (hother hnext nofun)⟩
  | save hrip => exact ⟨nofun, fun _ ↦ rfl⟩
  | switch core hrip hnext => exact ⟨nofun, fun hsave ↦ absurd hsave (hother hnext nofun)⟩
  | restore hrip =>
    obtain ⟨-, hnext, -⟩ := stage_restore hplaced (h.at hrip).2
    exact ⟨nofun, fun hsave ↦ absurd hsave (hother hnext nofun)⟩
  | enter core function hrip hnext =>
    obtain ⟨-, t, stack, -, -, -, hexit, -⟩ := h.at hrip
    exact ⟨nofun, fun hsave ↦ absurd hsave (hother (hnext.trans hexit) nofun)⟩
  | exit middle hrip hcall =>
    obtain ⟨hidle, hstage⟩ := h.at hrip
    obtain ⟨-, hnext, -⟩ := stage_exit hplaced hidle hcall hstage
    exact ⟨fun _ ↦ hnext, fun hsave ↦ absurd hsave (hother hnext nofun)⟩

/-- Every dequeued task is entered once, at its own entry function.  When it leaves through
`task_exit` the processor goes on after the call of `restore_context` in `idle_task_entry`, never
after the call of `save_context`, with the stack pointer and the preserved registers of that call
of `save_context` and with the idle task as current task. -/
theorem entered_once_per_dequeue (hplaced : IdlePlaced idle idleStack)
    (hstart : Starting text idle idleStack start)
    (hrun : Run (ProcessorStep text) start taken final)
    (hordinary : ∀ step ∈ taken, OrdinaryDequeue text idle idleStack step)
    (hconfined : ∀ step ∈ taken, Confined idle idleStack step) :
    (∃ pending, (history taken).dequeued = (history taken).entered ++ pending ∧
        pending.length ≤ 1 ∧
        ((final.core.rip = text.address .idleLoop ∨
          final.core.rip = text.address .afterRestore) → pending = [])) ∧
      (final.core.rip = text.address .afterRestore →
        final.core.gs cpuCurrentTask = idle ∧ ∃ registers,
          (history taken).atSave = some registers ∧ final.core.reg .rsp = registers .rsp ∧
            ∀ r ∈ preserved, final.core.reg r = registers r) ∧
      ∀ step ∈ taken,
        (step.label = .exit → step.after.core.rip = text.address .afterRestore) ∧
          (step.after.core.rip = text.address .afterSave → step.label = .save) := by
  have hstage := stage_of_run hplaced hstart hrun hordinary hconfined
  refine ⟨hstage.entered, fun hrip ↦ ?_, fun step hstep ↦ ?_⟩
  · obtain ⟨-, hcurrent, hrsp, -, registers, hsave, hregisters, hpreserved⟩ := hstage.at hrip
    exact ⟨hcurrent, registers, hsave, hrsp.trans hregisters.symm, hpreserved⟩
  · obtain ⟨earlier, hearlier, hlast, hsubset⟩ := hrun.of_mem hstep
    have hbefore := stage_of_run hplaced hstart hearlier
      (fun prior hprior ↦ hordinary prior (hsubset prior hprior))
      fun prior hprior ↦ hconfined prior (hsubset prior hprior)
    exact hbefore.resume hplaced hlast

/-- A run that dequeues ordinary tasks, whose entry functions keep away from the idle task, with
its history. -/
def OrdinaryRun (text : Text Entry) (idle idleStack : ℕ) (start : Processor) (past : History)
    (processor : Processor) : Prop :=
  ∃ taken, Run (ProcessorStep text) start taken processor ∧
    (∀ step ∈ taken, OrdinaryDequeue text idle idleStack step) ∧
    (∀ step ∈ taken, Confined idle idleStack step) ∧ history taken = past

theorem OrdinaryRun.snoc (h : OrdinaryRun text idle idleStack start past final) {event : Event}
    {after : Processor} (hstep : ProcessorStep text final event after)
    (hordinary : OrdinaryDequeue text idle idleStack ⟨final, event, after⟩)
    (hconfined : Confined idle idleStack ⟨final, event, after⟩) :
    OrdinaryRun text idle idleStack start (observe ⟨final, event, after⟩ past) after := by
  obtain ⟨taken, hrun, htaken, hkept, rfl⟩ := h
  refine ⟨_, hrun.snoc _ hstep, ?_, ?_, history_concat ..⟩
  · exact List.forall_mem_append.mpr ⟨htaken, List.forall_mem_singleton.mpr hordinary⟩
  · exact List.forall_mem_append.mpr ⟨hkept, List.forall_mem_singleton.mpr hconfined⟩

theorem OrdinaryRun.stage (h : OrdinaryRun text idle idleStack start past final)
    (hplaced : IdlePlaced idle idleStack) (hstart : Starting text idle idleStack start) :
    StageInvariant text idle idleStack past final := by
  obtain ⟨taken, hrun, hordinary, hconfined, rfl⟩ := h
  exact stage_of_run hplaced hstart hrun hordinary hconfined

theorem exists_switch (processor : Processor)
    (hrip : processor.core.rip = text.address .afterSave) :
    ∃ after, ProcessorStep text processor .switch after ∧
      after.core.rip = text.address .atRestore := by
  refine ⟨{ processor with
    core :=
      { processor.core with
        reg := Function.update processor.core.reg .rdi processor.t
        rip := text.address .atRestore
        gs := Function.update processor.core.gs cpuCurrentTask processor.t } },
    .switch _ _ hrip rfl ?_ ?_ rfl rfl, rfl⟩ <;> simp

theorem exists_enter (processor : Processor) {function : Entry}
    (hrip : processor.core.rip = text.address (.entry function)) :
    ∃ after, ProcessorStep text processor
        (.enter (text.address (.entry function)) (processor.core.reg .rdi)) after ∧
      after.core.rip = processor.core.top ∧ after.core.memory = processor.core.memory := by
  refine ⟨{ processor with core := exec .ret processor.core }, .enter _ _ _ hrip rfl ?_ rfl, rfl,
    rfl⟩
  simp [exec, Core.drop, Core.setReg]

theorem exists_exitCall (text : Text Entry) (core : Core) :
    ∃ middle, ExitCall text core middle := by
  refine ⟨{ core with
      reg := Function.update (Function.update core.reg .rsp (core.reg .rsp - text.exitFrame)) .rdi
        (core.gs cpuIdleTask)
      gs := Function.update core.gs cpuCurrentTask (core.gs cpuIdleTask) },
    ?_, ?_, rfl, fun _ _ ↦ rfl⟩ <;> simp

theorem exists_save (hplaced : IdlePlaced idle idleStack) {processor : Processor}
    (hrip : processor.core.rip = text.address .atSave)
    (h : StageAt text idle idleStack past processor .atSave) :
    ∃ after, ProcessorStep text processor .save after ∧
      after.core.rip = text.address .afterSave :=
  ⟨_, .save processor hrip, (stage_save hplaced h).2.1⟩

theorem exists_restore (hplaced : IdlePlaced idle idleStack) {processor : Processor}
    (hrip : processor.core.rip = text.address .atRestore)
    (h : StageAt text idle idleStack past processor .atRestore) :
    ∃ after, ProcessorStep text processor .restore after ∧
      after.core.rip = text.address .taskTrampoline ∧ Arriving text idle idleStack past after :=
  ⟨_, .restore processor hrip, (stage_restore hplaced h).2⟩

theorem exists_trampoline {processor : Processor}
    (hrip : processor.core.rip = text.address .taskTrampoline)
    (h : Arriving text idle idleStack past processor) :
    ∃ after function, ProcessorStep text processor .trampoline after ∧
      after.core.rip = text.address (.entry function) := by
  obtain ⟨-, function, hentry, -⟩ := arriving_trampoline h
  exact ⟨_, function, .trampoline processor hrip, hentry⟩

/-- From the call of `save_context` the processor comes to the entry function of the task. -/
theorem OrdinaryRun.exists_entering (h : OrdinaryRun text idle idleStack start past final)
    (hplaced : IdlePlaced idle idleStack) (hstart : Starting text idle idleStack start)
    (hrip : final.core.rip = text.address .atSave) :
    ∃ later after function, OrdinaryRun text idle idleStack start later after ∧
      after.core.rip = text.address (.entry function) ∧ later.dequeued = past.dequeued := by
  obtain ⟨-, hatSave⟩ := (h.stage hplaced hstart).at hrip
  obtain ⟨saved, hsave, hsaveReturn⟩ := exists_save hplaced hrip hatSave
  have hsaved := h.snoc hsave nofun nofun
  obtain ⟨switched, hswitch, hcall⟩ := exists_switch saved hsaveReturn
  have hswitched := hsaved.snoc hswitch nofun nofun
  obtain ⟨-, hatRestore⟩ := (hswitched.stage hplaced hstart).at hcall
  obtain ⟨restored, hrestore, htrampoline, harriving⟩ := exists_restore hplaced hcall hatRestore
  have hrestored := hswitched.snoc hrestore nofun nofun
  obtain ⟨entering, function, hjump, hentry⟩ := exists_trampoline htrampoline harriving
  exact ⟨_, entering, function, hrestored.snoc hjump nofun nofun, hentry, rfl⟩

/-- A task that has been dequeued can be entered, and left again through `task_exit`. -/
theorem OrdinaryRun.exists_return (h : OrdinaryRun text idle idleStack start past final)
    (hplaced : IdlePlaced idle idleStack) (hstart : Starting text idle idleStack start)
    (hrip : final.core.rip = text.address .atSave) :
    ∃ later after, OrdinaryRun text idle idleStack start later after ∧
      after.core.rip = text.address .afterRestore ∧ later.dequeued = past.dequeued := by
  obtain ⟨past', entering, function, hentering, hentry, hpast⟩ :=
    h.exists_entering hplaced hstart hrip
  obtain ⟨-, -, -, -, -, -, htop, -⟩ := (hentering.stage hplaced hstart).at hentry
  obtain ⟨exiting, henter, hexit, hmemory⟩ := exists_enter entering hentry
  have hexiting := hentering.snoc henter nofun fun _ _ _ x _ ↦ congrFun hmemory x
  obtain ⟨hidle, hatExit⟩ := (hexiting.stage hplaced hstart).at (hexit.trans htop)
  obtain ⟨middle, hmiddle⟩ := exists_exitCall text exiting.core
  obtain ⟨-, hreturn, -⟩ := stage_exit hplaced hidle hmiddle hatExit
  exact ⟨_, _, hexiting.snoc (.exit exiting middle (hexit.trans htop) hmiddle) nofun nofun, hreturn,
    hpast⟩

end Runs

/-- A kernel with one entry function. -/
def smallText : Text Unit where
  address
    | .taskRun => 4096
    | .taskTrampoline => 4112
    | .idleTaskEntry => 4128
    | .idleLoop => 4144
    | .atSave => 4160
    | .afterSave => 4176
    | .atRestore => 4192
    | .afterRestore => 4208
    | .taskExit => 4224
    | .exitReturn => 4240
    | .entry _ => 4256
  injective := by
    intro first second h
    cases first <;> cases second <;> first | rfl | cases h
  word label := by cases label <;> simp
  idleFrame := 48
  exitFrame := 48
  idleFrame_le := by decide
  exitFrame_le := by decide

/-- A processor at `task_run`, with its idle task at 8192 and the stack of it at 12288. -/
def smallStart : Processor where
  core :=
    { reg := fun r ↦ if r = .rdi then 16352 else 0
      rflags := 2
      rip := 4096
      gs := fun _ ↦ 8192
      memory := taskInitStack smallText 8192 12288 .idleTaskEntry fun _ ↦ 0 }
  t := 0

/-- The processor at the instruction pointer `rip` of `idle_task_entry`, with these bytes. -/
def smallCore (rip : ℕ) (memory : Memory) : Core where
  reg r := if r = .rsp then idleRsp smallText 12288 else 0
  rflags := 2
  rip := rip
  gs := fun _ ↦ 8192
  memory := memory

/-- The bytes when a task at 20480, with its stack at 24576, has been dequeued. -/
def smallMemory : Memory :=
  taskInitStack smallText 20480 24576 (.entry ()) fun _ ↦ 0

theorem smallPlaced : IdlePlaced 8192 12288 :=
  ⟨by decide, by decide, Or.inl (by decide)⟩

theorem smallStarting : Starting smallText 8192 12288 smallStart := by
  have hfresh : Fresh smallText smallStart.core.memory 8192 12288 .idleTaskEntry :=
    fresh_taskInitStack smallText _ _ smallPlaced.recordBound.le smallPlaced.stackBound
      smallPlaced.apart
  exact ⟨rfl, hfresh.rsp.symm, rfl, rfl, hfresh⟩

theorem smallElsewhere : Elsewhere 8192 12288 20480 24576 :=
  ⟨by decide, by decide, Or.inr (by decide), Or.inr (by decide), Or.inr (by decide),
    Or.inr (by decide)⟩

theorem smallCore_words (rip : ℕ) (memory : Memory) : (smallCore rip memory).Words := by
  refine ⟨fun r ↦ ?_, ?_⟩
  · dsimp only [smallCore]
    split <;> decide
  · dsimp only [smallCore]
    decide

/-- The steps from `task_run` to a first dequeue. -/
def smallTaken : List (Taken Processor Event) :=
  let launched := run taskRun smallStart.core
  let entered := run taskTrampoline launched
  let looping := smallCore 4144 smallMemory
  let dequeued := smallCore 4160 smallMemory
  [⟨smallStart, .launch, ⟨launched, 0⟩⟩, ⟨⟨launched, 0⟩, .trampoline, ⟨entered, 0⟩⟩,
    ⟨⟨entered, 0⟩, .prologue, ⟨looping, 0⟩⟩, ⟨⟨looping, 0⟩, .dequeue 20480, ⟨dequeued, 20480⟩⟩]

theorem small_run :
    Run (ProcessorStep smallText) smallStart smallTaken ⟨smallCore 4160 smallMemory, 20480⟩ := by
  have hlaunched : Launched smallStart.core 16352 (run taskRun smallStart.core) :=
    run_taskRun rfl (by decide)
  have hfresh := smallStarting.fresh
  have hentered := run_taskTrampoline hlaunched.rsp (by decide)
  have hrip : (run taskRun smallStart.core).rip = smallText.address .taskTrampoline :=
    hlaunched.rip.trans hfresh.trampoline
  have hentry : (run taskTrampoline (run taskRun smallStart.core)).rip =
      smallText.address .idleTaskEntry := by
    rw [hentered.rip, hlaunched.memory]
    exact hfresh.entryWord
  have hprologue : ProcessorStep smallText ⟨run taskTrampoline (run taskRun smallStart.core), 0⟩
      .prologue ⟨smallCore 4144 smallMemory, 0⟩ := by
    refine ProcessorStep.prologue _ _ hentry rfl ?_ ?_
    · rw [hentered.rsp]
      rfl
    · rw [hentered.gs, hlaunched.gs]
      rfl
  have hdequeue : ProcessorStep smallText ⟨smallCore 4144 smallMemory, 0⟩ (.dequeue 20480)
      ⟨smallCore 4160 smallMemory, 20480⟩ :=
    ProcessorStep.dequeue _ _ _ (smallCore_words _ _) rfl rfl rfl rfl
  exact (((Run.nil.snoc .launch (ProcessorStep.launch smallStart rfl)).snoc .trampoline
    (ProcessorStep.trampoline ⟨run taskRun smallStart.core, 0⟩ hrip)).snoc .prologue
      hprologue).snoc _ hdequeue

/-- The processor dequeues the task, enters its entry function, and comes back to the loop through
`task_exit`. -/
theorem entered_once_per_dequeue_small : ∃ taken final,
    Run (ProcessorStep smallText) smallStart taken final ∧
      final.core.rip = smallText.address .afterRestore ∧
      (history taken).dequeued = [(20480, 4256)] ∧ (history taken).entered = [(20480, 4256)] ∧
      final.core.gs cpuCurrentTask = 8192 := by
  have hfresh : Fresh smallText smallMemory 20480 24576 (.entry ()) :=
    fresh_taskInitStack smallText _ _ smallElsewhere.recordBound.le smallElsewhere.stackBound
      (Or.inl (by decide))
  have hordinary : ∀ step ∈ smallTaken, OrdinaryDequeue smallText 8192 12288 step := by
    simp only [smallTaken, List.forall_mem_cons]
    refine ⟨nofun, nofun, nofun, fun task htask ↦ ?_, nofun⟩
    cases htask
    exact ⟨24576, (), smallElsewhere, hfresh⟩
  have hconfined : ∀ step ∈ smallTaken, Confined 8192 12288 step := by
    simp only [smallTaken, List.forall_mem_cons]
    exact ⟨nofun, nofun, nofun, nofun, nofun⟩
  have hdequeued : OrdinaryRun smallText 8192 12288 smallStart (history smallTaken) _ :=
    ⟨_, small_run, hordinary, hconfined, rfl⟩
  obtain ⟨past, final, ⟨taken, hrun, hordinary, hconfined, rfl⟩, hreturn, hpast⟩ :=
    hdequeued.exists_return smallPlaced smallStarting rfl
  obtain ⟨⟨pending, hpending, -, hempty⟩, hback, -⟩ :=
    entered_once_per_dequeue smallPlaced smallStarting hrun hordinary hconfined
  have hentry : (history smallTaken).dequeued = [(20480, 4256)] :=
    congrArg (fun function ↦ [(20480, function)]) hfresh.entryField
  rw [hempty (Or.inr hreturn), List.append_nil, hpast, hentry] at hpending
  exact ⟨taken, final, hrun, hreturn, hpast.trans hentry, hpending.symm, (hback hreturn).1⟩

end SideHOS.Tasks.Dispatched
