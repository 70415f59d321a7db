import SideHOS.Kernel.Context

/-!
# Specifications of the context switch

What `save_context`, `restore_context`, `task_trampoline` and `task_run` do to a core, each stated
once: `save_context` returns to its caller with every register in the current task's context and
the stack pointer of the context at its return address; `restore_context` loads the context of a
task and continues at the address its stack pointer points at.
-/

namespace SideHOS.Tasks.Switch

open Kernel.Context Machine Machine.ByteMemory Machine.X86

variable {core : Core} {task bottom returnAddress : ℕ}

theorem field_add_le (r : Register) : field r + 8 ≤ 152 := by
  cases r <;> decide

theorem le_field (r : Register) : 24 ≤ field r := by
  cases r <;> decide

/-- Different registers have fields that do not overlap. -/
theorem field_spaced {first second : Register} (h : first ≠ second) :
    field first + 8 ≤ field second ∨ field second + 8 ≤ field first := by
  revert h
  cases first <;> cases second <;> decide

theorem fields_spaced {registers : List Register} (h : registers.Nodup) :
    (fields registers).Pairwise fun first second ↦
      first.2 + 8 ≤ second.2 ∨ second.2 + 8 ≤ first.2 := by
  rw [fields, List.pairwise_map]
  exact h.imp field_spaced

theorem mem_fields {registers : List Register} {entry : Register × ℕ}
    (h : entry ∈ fields registers) : entry.1 ∈ registers ∧ entry.2 = field entry.1 := by
  obtain ⟨r, hr, rfl⟩ := List.mem_map.mp h
  exact ⟨hr, rfl⟩

theorem fields_fst (registers : List Register) :
    (fields registers).map Prod.fst = registers := by
  rw [fields, List.map_map]
  exact List.map_id registers

/-! ## `save_context` -/

abbrev contextExtent (task : ℕ) : Extent := ⟨task + taskContext, contextSize⟩

/-- A word is read alike in memories that agree around it. -/
theorem load64_of_agree {before after : Memory} {extent : Extent} {address : ℕ}
    (hagree : ∀ x, extent.Holds x → after x = before x)
    (hwithin : Extent.Within ⟨address, 8⟩ extent) :
    load64 after address = load64 before address :=
  load64_congr fun x hlow hhigh ↦ hagree x (hwithin.holds ⟨hlow, hhigh⟩)

theorem contextExtent_within (t : ℕ) : Extent.Within (contextExtent t) ⟨t, taskSize⟩ := by
  simp only [Extent.Within, Extent.stop, taskContext, contextSize, taskSize]
  omega

theorem field_within (t : ℕ) (r : Register) :
    Extent.Within ⟨t + field r, 8⟩ (contextExtent t) := by
  have hlow := le_field r
  have hhigh := field_add_le r
  simp only [Extent.Within, Extent.stop, taskContext, contextSize]
  omega

theorem rflags_within (t : ℕ) :
    Extent.Within ⟨t + (taskContext + contextRflags), 8⟩ (contextExtent t) := by
  simp only [Extent.Within, Extent.stop, taskContext, contextSize, contextRflags]
  omega

theorem fields_bound {registers : List Register} (hbound : task + taskSize ≤ 2 ^ 64) :
    ∀ entry ∈ fields registers, task + entry.2 < 2 ^ 64 := by
  intro entry hentry
  have hfield := field_add_le entry.1
  rw [(mem_fields hentry).2]
  unfold taskSize at hbound
  omega

/-- The memory after the flags, `rax` and `rdx` have been pushed. -/
def pushedMemory (core : Core) (bottom : ℕ) : Memory :=
  store64 (store64 (store64 core.memory (bottom + 16) core.rflags) (bottom + 8) (core.reg .rax))
    bottom (core.reg .rdx)

structure ScratchPushed (core : Core) (task bottom : ℕ) (after : Core) : Prop where
  rax : after.reg .rax = task
  rsp : after.reg .rsp = bottom
  reg : ∀ r, r ≠ .rax → r ≠ .rsp → after.reg r = core.reg r
  gs : after.gs = core.gs
  memory : after.memory = pushedMemory core bottom

theorem run_pushScratch (hgs : core.gs cpuCurrentTask = task)
    (htop : core.reg .rsp = bottom + 24) (hhigh : bottom + 24 < 2 ^ 64) :
    ScratchPushed core task bottom
      (run [.pushfq, .push .rax, .push .rdx, .loadGs cpuCurrentTask .rax] core) := by
  have hflags : core.reg .rsp = bottom + 16 + 8 := htop
  have hrax {memory : Memory} : (core.withStack (bottom + 16) memory).reg .rsp = bottom + 8 + 8 :=
    withStack_rsp
  have hrdx {memory : Memory} : (core.withStack (bottom + 8) memory).reg .rsp = bottom + 8 :=
    withStack_rsp
  rw [run_cons, exec, pushWord_eq hflags hhigh, run_cons, exec, pushWord_eq hrax (by omega),
    withStack_withStack, run_cons, exec, pushWord_eq hrdx (by omega), withStack_withStack, run_cons,
    exec, run_nil, withStack_gs, hgs]
  exact ⟨setReg_reg_self, by simp, fun r hrax hrsp ↦ by simp [hrax, hrsp], rfl, rfl⟩

/-- What a pop into `rdx` and a store of `rdx` do. -/
structure PopStored (core : Core) (bottom address value : ℕ) (after : Core) : Prop where
  rsp : after.reg .rsp = bottom + 8
  rdx : after.reg .rdx = value
  reg : ∀ r, r ≠ .rdx → r ≠ .rsp → after.reg r = core.reg r
  gs : after.gs = core.gs
  memory : after.memory = store64 core.memory address value

/-- A pushed word goes over `rdx` into a field of the task. -/
theorem run_popStore {value offset address : ℕ} (hrsp : core.reg .rsp = bottom)
    (hbottom : bottom + 8 < 2 ^ 64) (hvalue : load64 core.memory bottom = value)
    (haddress : core.reg .rax + offset = address) (hbound : address < 2 ^ 64) :
    PopStored core bottom address value
      (run [.pop .rdx, .store .rdx offset .rax] core) := by
  have haddress' : ((core.setReg .rsp (bottom + 8)).setReg .rdx value).reg .rax + offset =
      address := by
    simpa using haddress
  rw [run_cons, exec_pop hrsp hbottom, hvalue, run_cons, exec_store haddress' hbound, run_nil]
  exact ⟨by simp, by simp, fun r hrdx hrsp ↦ by simp [hrdx, hrsp], rfl, by simp⟩

structure ScratchSaved (core : Core) (task bottom : ℕ) (after : Core) : Prop where
  rax : after.reg .rax = task
  rsp : after.reg .rsp = bottom + 24
  rdx : after.reg .rdx = core.rflags
  reg : ∀ r, r ≠ .rax → r ≠ .rdx → r ≠ .rsp → after.reg r = core.reg r
  gs : after.gs = core.gs
  savedRdx : load64 after.memory (task + field .rdx) = core.reg .rdx
  savedRax : load64 after.memory (task + field .rax) = core.reg .rax
  savedRflags : load64 after.memory (task + (taskContext + contextRflags)) = core.rflags
  memory : ∀ x, ¬ (contextExtent task).Holds x → ¬ (Extent.mk bottom 24).Holds x →
    after.memory x = core.memory x

/-- The scratch registers are saved over the stack, which ends as it was. -/
theorem run_saveScratch (hwords : core.Words) (hgs : core.gs cpuCurrentTask = task)
    (htop : core.reg .rsp = bottom + 24) (hhigh : bottom + 24 < 2 ^ 64)
    (hbound : task + taskSize ≤ 2 ^ 64)
    (hapart : Extent.Apart (contextExtent task) ⟨bottom, 24⟩) :
    ScratchSaved core task bottom (run saveScratch core) := by
  simp only [Extent.Apart, Extent.stop, taskContext, contextSize] at hapart
  unfold taskSize at hbound
  have hraxRdx : Register.rax ≠ .rdx := by decide
  have hraxRsp : Register.rax ≠ .rsp := by decide
  have hrdxField : field .rdx = 104 := rfl
  have hraxField : field .rax = 128 := rfl
  have hflagsField : taskContext + contextRflags = 152 := rfl
  have hsplit : saveScratch =
      [Instruction.pushfq, .push .rax, .push .rdx, .loadGs cpuCurrentTask .rax] ++
        ([Instruction.pop .rdx, .store .rdx (field .rdx) .rax] ++
          ([Instruction.pop .rdx, .store .rdx (field .rax) .rax] ++
            [Instruction.pop .rdx, .store .rdx (taskContext + contextRflags) .rax])) := rfl
  rw [hsplit, run_append, run_append, run_append, hrdxField, hraxField, hflagsField]
  have hpushed := run_pushScratch hgs htop hhigh
  generalize run [.pushfq, .push .rax, .push .rdx, .loadGs cpuCurrentTask .rax] core = pushed
    at hpushed ⊢
  have hrdx : load64 pushed.memory bottom = core.reg .rdx := by
    rw [hpushed.memory]
    exact load64_store64_same (hwords.reg .rdx)
  have hfirst : PopStored pushed bottom (task + 104) (core.reg .rdx) _ :=
    run_popStore hpushed.rsp (by omega) hrdx (by rw [hpushed.rax]) (by omega)
  generalize run [.pop .rdx, .store .rdx 104 .rax] pushed = first at hfirst ⊢
  have hrax : load64 first.memory (bottom + 8) = core.reg .rax := by
    rw [hfirst.memory, load64_store64_of_apart (by omega), hpushed.memory, pushedMemory,
      load64_store64_of_apart (Or.inr le_rfl), load64_store64_same (hwords.reg .rax)]
  have hfirstRax : first.reg .rax = task := (hfirst.reg .rax hraxRdx hraxRsp).trans hpushed.rax
  have hsecond : PopStored first (bottom + 8) (task + 128) (core.reg .rax) _ :=
    run_popStore hfirst.rsp (by omega) hrax (by rw [hfirstRax]) (by omega)
  generalize run [.pop .rdx, .store .rdx 128 .rax] first = second at hsecond ⊢
  have hflags : load64 second.memory (bottom + 16) = core.rflags := by
    rw [hsecond.memory, load64_store64_of_apart (by omega), hfirst.memory,
      load64_store64_of_apart (by omega), hpushed.memory, pushedMemory,
      load64_store64_of_apart (by omega), load64_store64_of_apart (by omega),
      load64_store64_same hwords.rflags_lt]
  have hsecondRax : second.reg .rax = task := (hsecond.reg .rax hraxRdx hraxRsp).trans hfirstRax
  have hthird : PopStored second (bottom + 16) (task + 152) core.rflags _ :=
    run_popStore hsecond.rsp (by omega) hflags (by rw [hsecondRax]) (by omega)
  generalize run [.pop .rdx, .store .rdx 152 .rax] second = third at hthird ⊢
  refine ⟨(hthird.reg .rax hraxRdx hraxRsp).trans hsecondRax, hthird.rsp, hthird.rdx,
    fun r hrax hrdx hrsp ↦ ?_, ?_, ?_, ?_, ?_, fun x hcontext hstack ↦ ?_⟩
  · rw [hthird.reg r hrdx hrsp, hsecond.reg r hrdx hrsp, hfirst.reg r hrdx hrsp,
      hpushed.reg r hrax hrsp]
  · rw [hthird.gs, hsecond.gs, hfirst.gs, hpushed.gs]
  · rw [hrdxField, hthird.memory, load64_store64_of_apart (by omega), hsecond.memory,
      load64_store64_of_apart (by omega), hfirst.memory, load64_store64_same (hwords.reg .rdx)]
  · rw [hraxField, hthird.memory, load64_store64_of_apart (by omega), hsecond.memory,
      load64_store64_same (hwords.reg .rax)]
  · rw [hflagsField, hthird.memory, load64_store64_same hwords.rflags_lt]
  · simp only [Extent.Holds, Extent.stop, taskContext, contextSize] at hcontext hstack
    rw [hthird.memory, store64_of_outside (by omega), hsecond.memory,
      store64_of_outside (by omega), hfirst.memory, store64_of_outside (by omega), hpushed.memory,
      pushedMemory, store64_of_outside (by omega), store64_of_outside (by omega),
      store64_of_outside (by omega)]

/-- What `save_context` does from its first instruction on, with its return address at
`bottom + 24`. -/
structure ContextSaved (core : Core) (task bottom : ℕ) (after : Core) : Prop where
  rip : after.rip = load64 core.memory (bottom + 24)
  rsp : after.reg .rsp = bottom + 32
  reg : ∀ r, r ≠ .rax → r ≠ .rdx → r ≠ .rsp → after.reg r = core.reg r
  gs : after.gs = core.gs
  context : ∀ r, load64 after.memory (task + field r) = core.reg r
  savedRflags : load64 after.memory (task + (taskContext + contextRflags)) = core.rflags
  memory : ∀ x, ¬ (contextExtent task).Holds x → ¬ (Extent.mk bottom 24).Holds x →
    after.memory x = core.memory x

theorem savedLast_spaced : (fields savedLast).Pairwise fun first second ↦
    first.2 + 8 ≤ second.2 ∨ second.2 + 8 ≤ first.2 := fields_spaced (by decide)

/-- A field of the context that `save_context` has written before is not written again. -/
theorem load64_storeAll_scratch {reg : Register → ℕ} {memory : Memory} {offset : ℕ}
    (hbound : task + taskSize ≤ 2 ^ 64)
    (hoffset : offset = 104 ∨ offset = 128 ∨ offset = 152) :
    load64 (storeAll reg task (fields savedLast) memory) (task + offset) =
      load64 memory (task + offset) := by
  apply load64_storeAll_of_apart (fields_bound hbound)
  intro entry hentry
  have hapart : offset + 8 ≤ entry.2 ∨ entry.2 + 8 ≤ offset := by
    rcases hoffset with rfl | rfl | rfl <;> revert entry <;> decide
  omega

/-- The registers that `save_context` saves last are found in their fields. -/
theorem load64_storeAll_last {scratch : Core} (hscratch : ScratchSaved core task bottom scratch)
    (hwords : core.Words) (htop : core.reg .rsp = bottom + 24)
    (hbound : task + taskSize ≤ 2 ^ 64) {r : Register} (hr : r ∈ savedLast) :
    load64 (storeAll scratch.reg task (fields savedLast) scratch.memory) (task + field r) =
      core.reg r := by
  have hkept (other : Register) (hother : other ∈ savedLast) :
      scratch.reg other = core.reg other := by
    have hne : other ≠ .rax ∧ other ≠ .rdx := by
      revert hother
      cases other <;> decide
    by_cases hrsp : other = .rsp
    · rw [hrsp, hscratch.rsp, htop]
    · exact hscratch.reg other hne.1 hne.2 hrsp
  rw [← hkept r hr]
  apply load64_storeAll ?_ (fields_bound hbound) savedLast_spaced (List.mem_map.mpr ⟨r, hr, rfl⟩)
  intro entry hentry
  rw [hkept entry.1 (mem_fields hentry).1]
  exact hwords.reg entry.1

/-- `save_context` returns with the registers in the context of the current task. -/
theorem run_saveContext (hwords : core.Words) (hgs : core.gs cpuCurrentTask = task)
    (htop : core.reg .rsp = bottom + 24) (hhigh : bottom + 32 < 2 ^ 64)
    (hbound : task + taskSize ≤ 2 ^ 64)
    (hapart : Extent.Apart (contextExtent task) ⟨bottom, 32⟩) :
    ContextSaved core task bottom (run saveContext core) := by
  have hscratchApart : Extent.Apart (contextExtent task) ⟨bottom, 24⟩ :=
    hapart.mono_right ⟨le_rfl, by simp [Extent.stop]⟩
  have hscratch := run_saveScratch hwords hgs htop (by omega) hbound hscratchApart
  rw [saveContext, run_append, run_append]
  generalize run saveScratch core = scratch at hscratch ⊢
  rw [run_storeFields, hscratch.rax]
  have hsaved {r : Register} (hr : r ∈ savedLast) :
      load64 (storeAll scratch.reg task (fields savedLast) scratch.memory) (task + field r) =
        core.reg r := load64_storeAll_last hscratch hwords htop hbound hr
  have hearlier {offset : ℕ} (hoffset : offset = 104 ∨ offset = 128 ∨ offset = 152) :
      load64 (storeAll scratch.reg task (fields savedLast) scratch.memory) (task + offset) =
        load64 scratch.memory (task + offset) := load64_storeAll_scratch hbound hoffset
  have houtside (x : ℕ) (hcontext : ¬ (contextExtent task).Holds x) :
      storeAll scratch.reg task (fields savedLast) scratch.memory x = scratch.memory x := by
    apply storeAll_of_outside (fields_bound hbound)
    intro entry hentry
    have hlow := le_field entry.1
    have hhigh := field_add_le entry.1
    rw [(mem_fields hentry).2]
    simp only [Extent.Holds, Extent.stop, taskContext, contextSize] at hcontext
    omega
  generalize storeAll scratch.reg task (fields savedLast) scratch.memory = memory
    at hsaved hearlier houtside ⊢
  have hret : exec .ret { scratch with memory := memory } = _ :=
    exec_ret hscratch.rsp (by omega)
  rw [run_cons, run_nil, hret]
  refine ⟨?_, ?_, fun r hrax hrdx hrsp ↦ ?_, hscratch.gs, fun r ↦ ?_, ?_,
    fun x hcontext hstack ↦ ?_⟩
  · change load64 memory _ = _
    apply load64_congr
    intro x hlow hhigh
    simp only [Extent.Apart, Extent.stop, taskContext, contextSize] at hapart
    have hcontext : ¬ (contextExtent task).Holds x := by
      simp only [Extent.Holds, Extent.stop, taskContext, contextSize]
      omega
    have hstack : ¬ (Extent.mk bottom 24).Holds x := by
      simp only [Extent.Holds, Extent.stop]
      omega
    rw [houtside x hcontext, hscratch.memory x hcontext hstack]
  · simp
  · simp [hrsp, hscratch.reg r hrax hrdx hrsp]
  · change load64 memory _ = _
    by_cases hr : r ∈ savedLast
    · exact hsaved hr
    · have hscratchReg : r = .rax ∨ r = .rdx := by
        revert hr
        cases r <;> decide
      rcases hscratchReg with rfl | rfl
      · rw [show field .rax = 128 from rfl, hearlier (Or.inr (Or.inl rfl))]
        exact hscratch.savedRax
      · rw [show field .rdx = 104 from rfl, hearlier (Or.inl rfl)]
        exact hscratch.savedRdx
  · change load64 memory (task + 152) = _
    rw [hearlier (Or.inr (Or.inr rfl))]
    exact hscratch.savedRflags
  · change memory x = _
    rw [houtside x hcontext, hscratch.memory x hcontext hstack]

/-- What a call of `save_context` does, with `bottom + 32` the stack pointer of its caller. -/
structure Saved (core : Core) (task bottom returnAddress : ℕ) (after : Core) : Prop where
  rip : after.rip = returnAddress
  rsp : after.reg .rsp = core.reg .rsp
  reg : ∀ r, r ≠ .rax → r ≠ .rdx → after.reg r = core.reg r
  gs : after.gs = core.gs
  context : ∀ r, r ≠ .rsp → load64 after.memory (task + field r) = core.reg r
  contextRsp : load64 after.memory (task + field .rsp) = bottom + 24
  contextRflags : load64 after.memory (task + (taskContext + contextRflags)) = core.rflags
  memory : ∀ x, ¬ (contextExtent task).Holds x → ¬ (Extent.mk bottom 32).Holds x →
    after.memory x = core.memory x

/-- `save_context` returns to its caller. -/
theorem call_saveContext (hwords : core.Words) (hgs : core.gs cpuCurrentTask = task)
    (htop : core.reg .rsp = bottom + 32) (hhigh : bottom + 32 < 2 ^ 64)
    (hbound : task + taskSize ≤ 2 ^ 64) (hreturn : returnAddress < 2 ^ 64)
    (hapart : Extent.Apart (contextExtent task) ⟨bottom, 32⟩) :
    Saved core task bottom returnAddress (call returnAddress saveContext core) := by
  have htop' : core.reg .rsp = bottom + 24 + 8 := htop
  rw [call, pushWord_eq htop' hhigh]
  set entered := core.withStack (bottom + 24) (store64 core.memory (bottom + 24) returnAddress)
    with hentered
  have hregEntered (r : Register) (hr : r ≠ .rsp) : entered.reg r = core.reg r := by
    rw [hentered, withStack_reg_of_ne hr]
  have hrspEntered : entered.reg .rsp = bottom + 24 := withStack_rsp
  have hwordsEntered : entered.Words := by
    refine ⟨fun r ↦ ?_, hwords.rflags⟩
    by_cases hr : r = .rsp
    · rw [hr, hrspEntered]
      omega
    · rw [hregEntered r hr]
      exact hwords.reg r
  have hsaved := run_saveContext hwordsEntered hgs hrspEntered hhigh hbound hapart
  have hslot : load64 entered.memory (bottom + 24) = returnAddress := by
    rw [hentered, withStack_memory, load64_store64_same hreturn]
  refine ⟨hsaved.rip.trans hslot, hsaved.rsp.trans htop.symm, fun r hrax hrdx ↦ ?_, hsaved.gs,
    fun r hr ↦ ?_, ?_, hsaved.savedRflags, fun x hcontext hstack ↦ ?_⟩
  · by_cases hr : r = .rsp
    · rw [hr, hsaved.rsp, htop]
    · rw [hsaved.reg r hrax hrdx hr, hregEntered r hr]
  · rw [hsaved.context r, hregEntered r hr]
  · rw [hsaved.context .rsp, hrspEntered]
  · simp only [Extent.Holds, Extent.stop] at hstack
    have hbelow : ¬ (Extent.mk bottom 24).Holds x := by
      simp only [Extent.Holds, Extent.stop]
      omega
    rw [hsaved.memory x hcontext hbelow, hentered, withStack_memory,
      store64_of_outside (by omega)]

/-! ## `restore_context` -/

/-- What a call of `restore_context` does, with `bottom + 16` the stack pointer of its caller. -/
structure Restored (core : Core) (task bottom returnAddress : ℕ) (after : Core) : Prop where
  memory : after.memory = store64 (store64 core.memory (bottom + 8) returnAddress) bottom
    (load64 core.memory (task + (taskContext + contextRflags)))
  gs : after.gs = core.gs
  reg : ∀ r, r ≠ .rsp → after.reg r = load64 core.memory (task + field r)
  rflags : after.rflags = flagsOf (load64 core.memory (task + (taskContext + contextRflags)))
  rsp : after.reg .rsp = load64 core.memory (task + field .rsp) + 8
  rip : after.rip = load64 after.memory (load64 core.memory (task + field .rsp))

/-- What `restore_context` has done when it comes to its last five instructions. -/
structure FieldsLoaded (core : Core) (task bottom returnAddress : ℕ) (after : Core) : Prop where
  rdi : after.reg .rdi = task
  rsp : after.reg .rsp = bottom + 8
  reg : ∀ r, r ≠ .rdi → r ≠ .rsp → after.reg r = load64 core.memory (task + field r)
  gs : after.gs = core.gs
  memory : after.memory = store64 core.memory (bottom + 8) returnAddress

/-- Words of the context are not on the stack of the caller. -/
theorem load64_context {memory : Memory} {offset address value : ℕ} (hlow : 24 ≤ offset)
    (hhigh : offset + 8 ≤ 160) (hapart : Extent.Apart (contextExtent task) ⟨bottom, 16⟩)
    (haddress : address = bottom ∨ address = bottom + 8) :
    load64 (store64 memory address value) (task + offset) = load64 memory (task + offset) := by
  simp only [Extent.Apart, Extent.stop, taskContext, contextSize] at hapart
  exact load64_store64_of_apart (by omega)

theorem run_loadedFirst (hrdi : core.reg .rdi = task) (htop : core.reg .rsp = bottom + 16)
    (hhigh : bottom + 16 < 2 ^ 64) (hbound : task + taskSize ≤ 2 ^ 64)
    (hapart : Extent.Apart (contextExtent task) ⟨bottom, 16⟩) :
    FieldsLoaded core task bottom returnAddress
      (run (loadFields .rdi (fields loadedFirst)) (core.pushWord returnAddress)) := by
  have htop' : core.reg .rsp = bottom + 8 + 8 := htop
  rw [pushWord_eq htop' hhigh]
  set entered := core.withStack (bottom + 8) (store64 core.memory (bottom + 8) returnAddress)
    with hentered
  have hrdiEntered : entered.reg .rdi = task := by simpa [hentered] using hrdi
  have hother (r : Register) (hr : r ∉ loadedFirst) :
      (run (loadFields .rdi (fields loadedFirst)) entered).reg r = entered.reg r :=
    run_loadFields_of_not_mem entered .rdi (by rwa [fields_fst])
  have hloaded (r : Register) (hr : r ∈ loadedFirst) :
      (run (loadFields .rdi (fields loadedFirst)) entered).reg r =
        load64 core.memory (task + field r) := by
    have hfield : (r, field r) ∈ fields loadedFirst := List.mem_map.mpr ⟨r, hr, rfl⟩
    have hbase : Register.rdi ∉ (fields loadedFirst).map Prod.fst := by
      rw [fields_fst]
      decide
    have hnodup : ((fields loadedFirst).map Prod.fst).Nodup := by
      rw [fields_fst]
      decide
    have hload := run_loadFields_of_mem entered hbase hnodup hfield
    have hlow := le_field r
    have hhigh := field_add_le r
    unfold taskSize at hbound
    rw [hload, hrdiEntered, Word64.add_of_lt (by omega), hentered, withStack_memory]
    exact load64_context hlow (by omega) hapart (Or.inr rfl)
  have hrun := run_loadFields entered .rdi (fields loadedFirst)
  generalize run (loadFields .rdi (fields loadedFirst)) entered = loaded at hother hloaded hrun ⊢
  have hmemory : loaded.memory = entered.memory := by rw [hrun]
  have hgs : loaded.gs = entered.gs := by rw [hrun]
  refine ⟨?_, ?_, fun r hrdi hrsp ↦ ?_, hgs, hmemory⟩
  · rw [hother .rdi (by decide), hrdiEntered]
  · rw [hother .rsp (by decide), hentered, withStack_rsp]
  · apply hloaded r
    revert hrdi hrsp
    cases r <;> decide

structure FlagsLoaded (core : Core) (bottom flags : ℕ) (after : Core) : Prop where
  reg : ∀ r, r ≠ .rsp → after.reg r = core.reg r
  gs : after.gs = core.gs
  rflags : after.rflags = flagsOf flags
  memory : after.memory = store64 core.memory bottom flags

theorem run_loadFlags {offset address flags : ℕ} (htop : core.reg .rsp = bottom + 8)
    (hhigh : bottom + 8 < 2 ^ 64) (haddress : core.reg .rdi + offset = address)
    (hbound : address < 2 ^ 64) (hflags : load64 core.memory address = flags) :
    FlagsLoaded core bottom flags (run [.pushMemory offset .rdi, .popfq] core) := by
  have hword : flags < 2 ^ 64 := hflags ▸ load64_lt core.memory address
  have hpop : exec .popfq (core.withStack bottom (store64 core.memory bottom flags)) = _ :=
    exec_popfq withStack_rsp hhigh
  rw [run_cons, exec_pushMemory haddress hbound htop hhigh, hflags, run_cons, run_nil, hpop]
  refine ⟨fun r hr ↦ by simp [hr], rfl, ?_, by simp⟩
  exact congrArg flagsOf (load64_store64_same hword)

/-- What loading `rsp` and `rdi` and leaving does. -/
structure StackLoaded (core : Core) (stack rdi : ℕ) (after : Core) : Prop where
  rsp : after.reg .rsp = stack + 8
  rdi : after.reg .rdi = rdi
  reg : ∀ r, r ≠ .rsp → r ≠ .rdi → after.reg r = core.reg r
  gs : after.gs = core.gs
  rflags : after.rflags = core.rflags
  memory : after.memory = core.memory
  rip : after.rip = load64 core.memory stack

theorem run_loadStack {stackOffset rdiOffset stack rdi : ℕ}
    (hstackBound : core.reg .rdi + stackOffset < 2 ^ 64)
    (hrdiBound : core.reg .rdi + rdiOffset < 2 ^ 64)
    (hstack : load64 core.memory (core.reg .rdi + stackOffset) = stack)
    (hrdi : load64 core.memory (core.reg .rdi + rdiOffset) = rdi) (hhigh : stack + 8 < 2 ^ 64) :
    StackLoaded core stack rdi
      (run [.load stackOffset .rdi .rsp, .load rdiOffset .rdi .rdi, .ret] core) := by
  have hsame : (core.setReg .rsp stack).reg .rdi + rdiOffset = core.reg .rdi + rdiOffset := by
    simp
  have htop : ((core.setReg .rsp stack).setReg .rdi rdi).reg .rsp = stack := by
    simp
  have hret : exec .ret ((core.setReg .rsp stack).setReg .rdi rdi) = _ := exec_ret htop hhigh
  rw [run_cons, exec_load rfl hstackBound, hstack, run_cons, exec_load hsame hrdiBound,
    setReg_memory, hrdi, run_cons, run_nil, hret]
  exact ⟨by simp, by simp, fun r hrsp hrdi ↦ by simp [hrsp, hrdi], rfl, rfl, rfl, rfl⟩

/-- `restore_context` loads the context of the task and goes on where its stack pointer says. -/
theorem call_restoreContext (hrdi : core.reg .rdi = task) (htop : core.reg .rsp = bottom + 16)
    (hhigh : bottom + 16 < 2 ^ 64) (hbound : task + taskSize ≤ 2 ^ 64)
    (hapart : Extent.Apart (contextExtent task) ⟨bottom, 16⟩)
    (hstack : load64 core.memory (task + field .rsp) + 8 < 2 ^ 64) :
    Restored core task bottom returnAddress (call returnAddress restoreContext core) := by
  have hsplit : restoreLast =
      [Instruction.pushMemory (taskContext + contextRflags) .rdi, .popfq] ++
        [Instruction.load (field .rsp) .rdi .rsp, .load (field .rdi) .rdi .rdi, .ret] := rfl
  rw [call, restoreContext, run_append, hsplit, run_append]
  have hloaded : FieldsLoaded core task bottom returnAddress _ :=
    run_loadedFirst hrdi htop hhigh hbound hapart
  generalize run (loadFields .rdi (fields loadedFirst)) (core.pushWord returnAddress) = loaded
    at hloaded ⊢
  have hflagsBound : task + (taskContext + contextRflags) < 2 ^ 64 := by
    unfold taskSize at hbound
    unfold taskContext contextRflags
    omega
  have hflagsWord : load64 loaded.memory (task + (taskContext + contextRflags)) =
      load64 core.memory (task + (taskContext + contextRflags)) := by
    rw [hloaded.memory]
    exact load64_context (by decide) (by decide) hapart (Or.inr rfl)
  have hflags := run_loadFlags hloaded.rsp (by omega) (by rw [hloaded.rdi]) hflagsBound hflagsWord
  generalize run [.pushMemory (taskContext + contextRflags) .rdi, .popfq] loaded = flagged
    at hflags ⊢
  have hflaggedRdi : flagged.reg .rdi = task := by
    rw [hflags.reg .rdi nofun, hloaded.rdi]
  have hmemory : flagged.memory = store64 (store64 core.memory (bottom + 8) returnAddress) bottom
      (load64 core.memory (task + (taskContext + contextRflags))) := by
    rw [hflags.memory, hloaded.memory]
  have hfieldBound (r : Register) : flagged.reg .rdi + field r < 2 ^ 64 := by
    have hfield := field_add_le r
    rw [hflaggedRdi]
    unfold taskSize at hbound
    omega
  have hfield (r : Register) : load64 flagged.memory (flagged.reg .rdi + field r) =
      load64 core.memory (task + field r) := by
    have hlow := le_field r
    have hhigh := field_add_le r
    rw [hflaggedRdi, hmemory, load64_context hlow (by omega) hapart (Or.inl rfl),
      load64_context hlow (by omega) hapart (Or.inr rfl)]
  have hlast := run_loadStack (hfieldBound .rsp) (hfieldBound .rdi) (hfield .rsp) (hfield .rdi)
    hstack
  generalize run [.load (field .rsp) .rdi .rsp, .load (field .rdi) .rdi .rdi, .ret] flagged = last
    at hlast ⊢
  refine ⟨hlast.memory.trans hmemory, ?_, fun r hr ↦ ?_, ?_, hlast.rsp, ?_⟩
  · rw [hlast.gs, hflags.gs, hloaded.gs]
  · by_cases hr' : r = .rdi
    · rw [hr', hlast.rdi]
    · rw [hlast.reg r hr hr', hflags.reg r hr, hloaded.reg r hr' hr]
  · rw [hlast.rflags, hflags.rflags]
  · rw [hlast.rip, hlast.memory]

/-! ## `task_trampoline` and `task_run` -/

/-- What `task_trampoline` does, with `stack` its stack pointer. -/
structure Trampolined (core : Core) (stack : ℕ) (after : Core) : Prop where
  rip : after.rip = load64 core.memory stack
  rdi : after.reg .rdi = load64 core.memory (stack + 8)
  rsp : after.reg .rsp = stack + 16
  gs : after.gs = core.gs
  memory : after.memory = store64 core.memory (stack + 16) (load64 core.memory (stack + 16))

/-- `task_trampoline` goes to the entry function with the task as its argument, and leaves the
address of `task_exit` on top of the stack. -/
theorem run_taskTrampoline {stack : ℕ} (htop : core.reg .rsp = stack)
    (hhigh : stack + 24 < 2 ^ 64) : Trampolined core stack (run taskTrampoline core) := by
  set entry := load64 core.memory stack
  set argument := load64 core.memory (stack + 8)
  set exit := load64 core.memory (stack + 16)
  have hentry : exec (.pop .rax) core = (core.setReg .rsp (stack + 8)).setReg .rax entry :=
    exec_pop htop (by omega)
  set first := (core.setReg .rsp (stack + 8)).setReg .rax entry with hfirst
  have hargument : exec (.pop .rdi) first =
      (first.setReg .rsp (stack + 16)).setReg .rdi argument :=
    exec_pop (by simp [hfirst]) (by omega)
  set second := (first.setReg .rsp (stack + 16)).setReg .rdi argument with hsecond
  have hexit : exec (.pop .rdx) second = (second.setReg .rsp (stack + 24)).setReg .rdx exit :=
    exec_pop (by simp [hsecond]) (by omega)
  set third := (second.setReg .rsp (stack + 24)).setReg .rdx exit with hthird
  have hthirdTop : third.reg .rsp = stack + 16 + 8 := by simp [hthird]
  have hpush : exec (.push .rdx) third =
      third.withStack (stack + 16) (store64 third.memory (stack + 16) (third.reg .rdx)) := by
    rw [exec, pushWord_eq hthirdTop (by omega)]
  have hthirdRdx : third.reg .rdx = exit := by simp [hthird]
  have hthirdMemory : third.memory = core.memory := by simp [hthird, hsecond, hfirst]
  rw [hthirdRdx, hthirdMemory] at hpush
  rw [taskTrampoline, run_cons, hentry, run_cons, hargument, run_cons, hexit, run_cons, hpush,
    run_cons, run_nil, exec]
  refine ⟨?_, ?_, by simp, ?_, by simp [exit]⟩
  · simp [hthird, hsecond, hfirst, entry]
  · simp [hthird, hsecond, argument]
  · simp [hthird, hsecond, hfirst]

/-- What `task_run` does, with `stack` its argument. -/
structure Launched (core : Core) (stack : ℕ) (after : Core) : Prop where
  rip : after.rip = load64 core.memory stack
  rsp : after.reg .rsp = stack + 8
  gs : after.gs = core.gs
  memory : after.memory = core.memory

theorem run_taskRun {stack : ℕ} (hrdi : core.reg .rdi = stack) (hhigh : stack + 8 < 2 ^ 64) :
    Launched core stack (run taskRun core) := by
  have htop : (core.setReg .rsp stack).reg .rsp = stack := setReg_reg_self
  have hret : exec .ret (core.setReg .rsp stack) = _ := exec_ret htop hhigh
  rw [taskRun, run_cons, exec, hrdi, run_cons, run_nil, hret]
  exact ⟨rfl, by simp, rfl, rfl⟩

/-! ## The stack of a new task -/

/-- A task as `task_init` leaves it: `entry` in its record, and the first words of its stack with
`context.rsp` pointing at the lowest of them. -/
structure Fresh {Entry : Type} (text : Text Entry) (memory : Memory) (t stack : ℕ)
    (entry : Label Entry) : Prop where
  entryField : load64 memory (t + 8) = text.address entry
  rsp : load64 memory (t + field .rsp) = stackTop stack - 32
  trampoline : load64 memory (stackTop stack - 32) = text.address .taskTrampoline
  entryWord : load64 memory (stackTop stack - 24) = text.address entry
  taskWord : load64 memory (stackTop stack - 16) = t
  exitWord : load64 memory (stackTop stack - 8) = text.address .taskExit

theorem le_stackTop (stack : ℕ) : stack + 4081 ≤ stackTop stack := by
  unfold stackTop
  omega

theorem stackTop_le (stack : ℕ) : stackTop stack ≤ stack + 4096 := by
  unfold stackTop
  omega

/-- `task_init` leaves a fresh task. -/
theorem fresh_taskInitStack {Entry : Type} (text : Text Entry) (memory : Memory) {t stack : ℕ}
    (entry : Label Entry) (ht : t + taskSize ≤ 2 ^ 64) (hstack : stack + 4096 < 2 ^ 64)
    (hapart : Extent.Apart ⟨t, taskSize⟩ ⟨stack, 4096⟩) :
    Fresh text (taskInitStack text t stack entry memory) t stack entry := by
  have hlow := le_stackTop stack
  have hhigh := stackTop_le stack
  have hfield : field .rsp = 144 := rfl
  simp only [Extent.Apart, Extent.stop, taskSize] at hapart
  unfold taskSize at ht
  have hrsp : stackTop stack - 32 < 2 ^ 64 := by omega
  constructor <;> simp only [taskInitStack, hfield]
  · rw [load64_store64_of_apart (by omega), load64_store64_of_apart (by omega),
      load64_store64_of_apart (by omega), load64_store64_of_apart (by omega),
      load64_store64_of_apart (by omega), load64_store64_same (text.word entry)]
  · rw [load64_store64_same hrsp]
  · rw [load64_store64_of_apart (by omega), load64_store64_same (text.word _)]
  · rw [load64_store64_of_apart (by omega), load64_store64_of_apart (by omega),
      load64_store64_same (text.word entry)]
  · rw [load64_store64_of_apart (by omega), load64_store64_of_apart (by omega),
      load64_store64_of_apart (by omega), load64_store64_same (by omega)]
  · rw [load64_store64_of_apart (by omega), load64_store64_of_apart (by omega),
      load64_store64_of_apart (by omega), load64_store64_of_apart (by omega),
      load64_store64_same (text.word _)]

end SideHOS.Tasks.Switch
