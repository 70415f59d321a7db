import SideHOS.Tasks.Switch

/-!
# Saving and restoring a context

What `save_context` stores, a later `restore_context` of the same task loads, from whatever
registers and stack it is entered with: `rax` and `rdx`, which serve as scratch registers before
they are saved, `rdi`, which is the base of all loads, and the flags, which go over the stack both
times.  Both routines are taken from their first instruction on, with the return address on the
stack.
-/

namespace SideHOS.Tasks.Switch

open Kernel.Context Machine Machine.ByteMemory Machine.X86

/-- Only the context of the task and `count` bytes below the stack pointer are written. -/
def WritesOnly (core : Core) (task count : ℕ) (after : Core) : Prop :=
  ∀ x, ¬ (contextExtent task).Holds x → ¬ (Extent.mk (core.reg .rsp - count) count).Holds x →
    after.memory x = core.memory x

/-- The core goes on behind the call of `save_context` that `core` had entered, with the registers
and the flags of `core`, at the address in the return slot of that call. -/
structure Resumes (core : Core) (memory : Memory) (after : Core) : Prop where
  reg : ∀ r, r ≠ .rsp → after.reg r = core.reg r
  rsp : after.reg .rsp = core.reg .rsp + 8
  rflags : after.rflags = core.rflags
  rip : after.rip = load64 memory (core.reg .rsp)

section Resume

variable {core other : Core} {task bottom below : ℕ}

/-- A core that has entered a routine is one whose caller has pushed the return address. -/
theorem exists_caller (htop : core.reg .rsp = bottom) (hbound : bottom + 8 < 2 ^ 64) :
    ∃ caller : Core, caller.reg .rsp = bottom + 8 ∧ (∀ r, r ≠ .rsp → caller.reg r = core.reg r) ∧
      caller.memory = core.memory ∧ caller.gs = core.gs ∧
      caller.pushWord (load64 core.memory bottom) = core := by
  refine ⟨core.setReg .rsp (bottom + 8), setReg_reg_self, fun r hr ↦ setReg_reg_of_ne hr, rfl, rfl,
    ?_⟩
  rw [pushWord_eq setReg_reg_self hbound, setReg_memory, store64_load64]
  apply Core.ext
  · funext r
    by_cases hr : r = .rsp
    · rw [hr, withStack_rsp, htop]
    · rw [withStack_reg_of_ne hr, setReg_reg_of_ne hr]
  · rfl
  · rfl
  · rfl
  · rfl

/-- What `restore_context` does from its first instruction on. -/
theorem run_restoreContext (hrdi : core.reg .rdi = task) (htop : core.reg .rsp = below + 8)
    (hhigh : below + 16 < 2 ^ 64) (hbound : task + taskSize ≤ 2 ^ 64)
    (hapart : Extent.Apart (contextExtent task) ⟨below, 16⟩)
    (hstack : load64 core.memory (task + field .rsp) + 8 < 2 ^ 64) :
    Restored core task below (load64 core.memory (below + 8)) (run restoreContext core) := by
  obtain ⟨caller, hrsp, hreg, hmemory, hgs, hpush⟩ := exists_caller htop hhigh
  have hrestored : Restored caller task below (load64 core.memory (below + 8))
      (call (load64 core.memory (below + 8)) restoreContext caller) :=
    call_restoreContext ((hreg .rdi nofun).trans hrdi) hrsp hhigh hbound hapart (by rwa [hmemory])
  rw [call, hpush] at hrestored
  obtain ⟨hmemory', hgs', hreg', hrflags, hrsp', hrip⟩ := hrestored
  rw [hmemory] at hmemory' hreg' hrflags hrsp' hrip
  exact ⟨hmemory', hgs'.trans hgs, hreg', hrflags, hrsp', hrip⟩

theorem ContextSaved.kept_field {saved : Core} {memory : Memory}
    (h : ContextSaved core task bottom saved)
    (hkept : ∀ x, (contextExtent task).Holds x → memory x = saved.memory x) (r : Register) :
    load64 memory (task + field r) = core.reg r := by
  rw [load64_of_agree hkept (field_within task r), h.context r]

theorem ContextSaved.kept_rflags {saved : Core} {memory : Memory}
    (h : ContextSaved core task bottom saved)
    (hkept : ∀ x, (contextExtent task).Holds x → memory x = saved.memory x) :
    load64 memory (task + (taskContext + contextRflags)) = core.rflags := by
  rw [load64_of_agree hkept (rflags_within task), h.savedRflags]

/-- Saving the context of the current task and restoring it later, from any core whose stack is
elsewhere, is the identity on every register and on the flags; both routines write no more than the
context and words below their stack pointers. -/
theorem save_restore_round_trip (hwords : core.Words) (hgs : core.gs cpuCurrentTask = task)
    (htop : core.reg .rsp = bottom + 24) (hhigh : bottom + 32 < 2 ^ 64)
    (hbound : task + taskSize ≤ 2 ^ 64) (hapart : Extent.Apart (contextExtent task) ⟨bottom, 32⟩)
    (hrdi : other.reg .rdi = task) (hotherTop : other.reg .rsp = below + 8)
    (hotherHigh : below + 16 < 2 ^ 64)
    (hotherApart : Extent.Apart (contextExtent task) ⟨below, 16⟩)
    (hslot : Extent.Apart ⟨bottom + 24, 8⟩ ⟨below, 16⟩)
    (hkept : ∀ x, (contextExtent task).Holds x →
      other.memory x = (run saveContext core).memory x) :
    Resumes core other.memory (run restoreContext other) ∧
      WritesOnly core task 24 (run saveContext core) ∧
      WritesOnly other task 8 (run restoreContext other) := by
  have hsaved := run_saveContext hwords hgs htop hhigh hbound hapart
  have hfield := hsaved.kept_field hkept
  have hstack : load64 other.memory (task + field .rsp) = bottom + 24 := (hfield .rsp).trans htop
  have hrestored : Restored other task below _ (run restoreContext other) :=
    run_restoreContext hrdi hotherTop hotherHigh hbound hotherApart (by rw [hstack]; exact hhigh)
  have hmemory := hrestored.memory
  rw [store64_load64] at hmemory
  have hbelow : core.reg .rsp - 24 = bottom := by omega
  have hotherBelow : other.reg .rsp - 8 = below := by omega
  refine ⟨⟨fun r hr ↦ ?_, ?_, ?_, ?_⟩, fun x hcontext hout ↦ ?_, fun x hcontext hout ↦ ?_⟩
  · rw [hrestored.reg r hr, hfield r]
  · rw [hrestored.rsp, hfield .rsp]
  · rw [hrestored.rflags, hsaved.kept_rflags hkept, hwords.rflags]
  · simp only [Extent.Apart, Extent.stop] at hslot
    rw [hrestored.rip, hmemory, hstack, htop]
    exact load64_store64_of_apart (by omega)
  · rw [hbelow] at hout
    exact hsaved.memory x hcontext hout
  · rw [hotherBelow] at hout
    simp only [Extent.Holds, Extent.stop] at hout
    rw [hmemory]
    exact store64_of_outside (by omega)

/-- A task whose flags are saved on one stack and restored on another. -/
theorem save_restore_round_trip_flags : ∃ core other : Core, core.rflags = 514 ∧
    other.rflags = 2 ∧ Resumes core other.memory (run restoreContext other) ∧
      WritesOnly core 4096 24 (run saveContext core) ∧
      WritesOnly other 4096 8 (run restoreContext other) := by
  let core : Core :=
    { reg := Function.update (fun _ ↦ 7) .rsp 8216
      rflags := 514
      rip := 0
      gs := fun _ ↦ 4096
      memory := fun _ ↦ 0 }
  let other : Core :=
    { reg := Function.update (fun _ ↦ 4096) .rsp 12296
      rflags := 2
      rip := 0
      gs := fun _ ↦ 4096
      memory := (run saveContext core).memory }
  have hwords : core.Words := by
    refine ⟨fun r ↦ ?_, show flagsOf 514 = 514 by decide⟩
    by_cases hr : r = .rsp
    · rw [hr, show core.reg .rsp = 8216 from rfl]
      norm_num
    · have hother : core.reg r = 7 := Function.update_of_ne hr 8216 fun _ ↦ 7
      rw [hother]
      norm_num
  refine ⟨core, other, rfl, rfl, ?_⟩
  exact save_restore_round_trip hwords rfl (show core.reg .rsp = 8192 + 24 from rfl) (by norm_num)
    (by norm_num [taskSize]) (by norm_num [Extent.Apart, Extent.stop, taskContext, contextSize]) rfl
    (show other.reg .rsp = 12288 + 8 from rfl) (by norm_num)
    (by norm_num [Extent.Apart, Extent.stop, taskContext, contextSize])
    (by norm_num [Extent.Apart, Extent.stop]) fun _ _ ↦ rfl

end Resume

end SideHOS.Tasks.Switch
