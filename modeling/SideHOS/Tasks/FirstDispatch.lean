import SideHOS.Tasks.Recycled

/-!
# The first dispatch of every task

Of the two ways in which a task is first dispatched, `task_run` leads to the entry function from
every core that runs without the trap flag.  `restore_context` does so for records from a new frame,
but the context in a record that is used again may have the trap flag set.
-/

namespace SideHOS.Tasks.Switch

open Heap Kernel Kernel.Context Machine Machine.ByteMemory Machine.X86 Recycled Transition

/-- On a core without the trap flag, a task is first dispatched to its entry function, with
`task_exit` to return to and an aligned stack, always by `task_run`, and by `restore_context`
exactly if `task_init` found the trap flag clear in the context; and the blocks that `kmalloc` gives
for records and stacks are as this needs them. -/
theorem first_dispatch_iff {Entry : Type} (text : Text Entry) (t stack : ℕ) (entry : Label Entry)
    (before : Memory) :
    (StackBlock t stack → FirstDispatch text t stack entry before) ∧
    ∀ (hhdmOffset : ℕ) (start final : HeapConfig) (taken : List (Taken HeapConfig HeapEvent)),
      Booted hhdmOffset start → start.freelist.cursor ≤ 127 →
      Run (HeapStep hhdmOffset) start taken final →
      (∀ call ∈ taken, Served maximumSize call) →
      (∀ call ∈ taken, call.after.freelist.cursor ≤ 127) →
      ∀ block ∈ final.live, block.size = 4096 → block.pointer = stack →
        ∀ record ∈ final.live, record ≠ block → Extent.Within ⟨t, taskSize⟩ record.payload →
          StackBlock t stack := by
  constructor
  · intro hblock
    exact firstDispatch hblock
  · intro hhdmOffset start final taken hboot hentries hrun hserved hcursor block hlive hsize hstack
      record hrecord hne hwithin
    obtain ⟨⟨heap, hheap⟩, -⟩ :=
      serves_of_run hboot maximumSize_lt hentries hrun hserved hcursor
    exact hstack ▸ stackBlock_of_live hheap hlive hsize hrecord hne hwithin

/-- A record and a stack that starts 40 bytes into a frame, both in memory full of zeros, and a core
that dispatches the task. -/
theorem first_dispatch_small : ∃ core : Core, core.trapFlag = false ∧
    RestoreEnters Dispatched.smallText 20480 24616 (.entry ()) 12288 core := by
  let core : Core :=
    { reg := Function.update (fun _ ↦ 20480) .rsp 12296
      rflags := 2
      rip := 0
      gs := fun _ ↦ 0
      memory := taskInitStack Dispatched.smallText 20480 24616 (.entry ()) fun _ ↦ 0 }
  have hdispatch := (first_dispatch_iff Dispatched.smallText 20480 24616 (.entry ()) fun _ ↦ 0).1
    ⟨by norm_num [taskSize], by norm_num, by norm_num [Extent.Apart, Extent.stop, taskSize]⟩
  refine ⟨core, by decide, (hdispatch.restored core 12288 ⟨fun x _ ↦ rfl, fun x _ ↦ rfl⟩ rfl rfl
    (by norm_num) ?_ ?_).mpr ⟨by decide, by decide⟩⟩
  · norm_num [Extent.Apart, Extent.stop, taskContext, contextSize]
  · norm_num [Extent.Apart, Extent.stop, stackTop]

/-- The owner of a record leaves the trap flag in it and frees it.  The next task gets the record,
and a debug exception comes before its entry function. -/
theorem first_dispatch_interrupted : ∃ (config : HeapConfig) (t stack below : ℕ)
    (middle after : AllocatorState) (core : Core), Leaves t 153 1 config ∧ Reached 0 config ∧
      Sharing.Program.run Kernel.exec (kmalloc 0 taskSize) config.state = some (t, middle) ∧
      Sharing.Program.run Kernel.exec (kmalloc 0 4096) middle = some (stack, after) ∧
      core.memory = taskInitStack Dispatched.smallText t stack (.entry ()) after.bytes ∧
      core.reg .rdi = t ∧ core.reg .rsp = below + 8 ∧ below + 16 < 2 ^ 64 ∧
      Extent.Apart (contextExtent t) ⟨below, 16⟩ ∧
      Extent.Apart (preparedWords stack) ⟨below, 16⟩ ∧ core.trapFlag = false ∧
      ¬ RestoreEnters Dispatched.smallText t stack (.entry ()) below core := by
  obtain ⟨mapping, released, page, hoffset, hreturned⟩ :=
    exists_returned (show 152 + 1 < taskSize by decide)
  obtain ⟨config, hconfig⟩ := hreturned 1
  obtain ⟨t, middle, stack, after, hmade⟩ :=
    exists_made hconfig.represents hconfig.reached.inOrder.lock_eq hconfig.granted
  rw [hoffset] at hmade
  let core : Core :=
    { reg := Function.update (fun _ ↦ t) .rsp 8
      rflags := 2
      rip := 0
      gs := fun _ ↦ 0
      memory := taskInitStack Dispatched.smallText t stack (.entry ()) after.bytes }
  have hflag : core.trapFlag = false := show Nat.testBit 2 8 = false by decide
  have hlow := le_stackTop stack
  have hhigh := stackTop_le stack
  have hbound := hmade.stack_lt
  have hcontext : Extent.Apart (contextExtent t) ⟨0, 16⟩ := by
    refine Or.inr ?_
    simp only [Extent.stop, taskContext]
    omega
  have hwords : Extent.Apart (preparedWords stack) ⟨0, 16⟩ := by
    refine Or.inr ?_
    simp only [Extent.stop]
    omega
  have hrsp : load64 core.memory (t + field .rsp) = stackTop stack - 32 :=
    load64_taskInitStack_rsp hbound
  have hflags : load64 core.memory (t + (taskContext + contextRflags)) =
      load64 config.state.bytes (page.base + 56 + 152) := by
    rw [hmade.load64_context (by decide) (by decide) (Or.inr (by decide))]
    exact hmade.found.load64_reused hconfig.reuses (by decide)
  have htrap : contextTrapFlag core.memory t = true := by
    rw [contextTrapFlag, hflags]
    exact hconfig.testBit_word (Nat.one_lt_ofNat)
  have haddress : t = page.base + 56 := hmade.found.pointer_eq hconfig.reuses
  refine ⟨config, t, stack, 0, middle, after, core, haddress ▸ hconfig.leaves, hconfig.reached,
    hmade.record, hmade.stack_eq, rfl, rfl, rfl, by norm_num, hcontext, hwords, hflag,
    fun henters ↦ henters.uninterrupted ?_⟩
  rw [interrupted_restoreContext (t := t) rfl rfl (by norm_num) hmade.record_le hcontext
    (by rw [hrsp]; omega)]
  exact Or.inr htrap

end SideHOS.Tasks.Switch
