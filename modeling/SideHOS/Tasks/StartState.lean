import SideHOS.Tasks.Recycled

/-!
# The state a task starts in

`task_init` sets one field of the context, the stack pointer, and `restore_context` loads all of
them.  The others hold what `kmalloc` left in the record: zeros when the record comes from a new
frame, and else the bytes of the free node it was carved from.  Two heaps with the same metadata
thus start a task alike exactly if the leftovers in this node agree.
-/

namespace SideHOS.Tasks.StartState

open Heap Kernel Kernel.Context Linked Machine Machine.ByteMemory Recycled
  Sharing.Program Switch

def FreeNode (state : AllocatorState) (node : ℕ) : Prop :=
  ∃ pages page nodes, Chain 0 (pageNext state.bytes) state.context.heapPages pages ∧
    page ∈ pages ∧ Chain 0 (nodeNext state.bytes) (load64 state.bytes page) nodes ∧ node ∈ nodes

/-- Memory differs at most in what free nodes have behind their headers. -/
def DifferInNodes (first second : AllocatorState) : Prop :=
  ∀ x, (∀ node, FreeNode first node →
    ¬ (Extent.mk (node + 16) (load64 first.bytes node)).Holds x) → second.bytes x = first.bytes x

/-- `kmalloc(sizeof(Task))` gets a block, or finds nothing in frame 0 and answers `NULL`. -/
def Answered (hhdmOffset : ℕ) (state : AllocatorState) : Prop :=
  Granted taskSize state ∨ NoFit hhdmOffset taskSize state.bytes

/-- Memory after `t = kmalloc(sizeof(Task))` and `task_init(t, entry)`.  A null pointer is a
fault. -/
def Initialized {Entry : Type} (hhdmOffset : ℕ) (text : Text Entry) (entry : Label Entry)
    (state : AllocatorState) (t : ℕ) (memory : Memory) : Prop :=
  ∃ middle stack after, run exec (kmalloc hhdmOffset taskSize) state = some (t, middle) ∧ t ≠ 0 ∧
    run exec (kmalloc hhdmOffset 4096) middle = some (stack, after) ∧
    memory = taskInitStack text t stack entry after.bytes

/-- The core has entered `restore_context(t)` for a task made from this state, with its stack
elsewhere and the context as `task_init` left it. -/
def Dispatching {Entry : Type} (hhdmOffset : ℕ) (text : Text Entry) (entry : Label Entry)
    (state : AllocatorState) (core : X86.Core) : Prop :=
  ∃ t memory below, Initialized hhdmOffset text entry state t memory ∧
    (∀ x, (contextExtent t).Holds x → core.memory x = memory x) ∧ core.reg .rdi = t ∧
    core.reg .rsp = below + 8 ∧ below + 16 < 2 ^ 64 ∧
    Extent.Apart (contextExtent t) ⟨below, 16⟩

/-- A new task starts with the same registers and flags from both states. -/
def StartsAlike {Entry : Type} (hhdmOffset : ℕ) (text : Text Entry) (entry : Label Entry)
    (first second : AllocatorState) : Prop :=
  ∀ core other, Dispatching hhdmOffset text entry first core →
    Dispatching hhdmOffset text entry second other →
    (∀ r, (X86.run restoreContext other).reg r = (X86.run restoreContext core).reg r) ∧
      (X86.run restoreContext other).rflags = (X86.run restoreContext core).rflags

/-- Where the record would reuse a free node, the leftovers in its context agree, apart from the
stack pointer and the bits of the flags that `popfq` does not load. -/
def LeftoversAgree (first second : AllocatorState) : Prop :=
  ∀ node, Reuses first taskSize node →
    (∀ r, r ≠ .rsp → load64 second.bytes (node + 24 + field r) =
      load64 first.bytes (node + 24 + field r)) ∧
    X86.flagsOf (load64 second.bytes (node + 24 + (taskContext + contextRflags))) =
      X86.flagsOf (load64 first.bytes (node + 24 + (taskContext + contextRflags)))

/-- The registers and flags a new task starts with. -/
structure Starts (state : AllocatorState) (stack : ℕ) (core : X86.Core) : Prop where
  reused : ∀ node, Reuses state taskSize node →
    (∀ r, r ≠ .rsp → core.reg r = load64 state.bytes (node + 24 + field r)) ∧
      core.rflags =
        X86.flagsOf (load64 state.bytes (node + 24 + (taskContext + contextRflags)))
  zeroed : (∀ node, ¬ Reuses state taskSize node) →
    (∀ r, r ≠ .rsp → core.reg r = 0) ∧ core.rflags = X86.flagsOf 0
  rsp : core.reg .rsp = stackTop stack - 24

section StartState

variable {Entry : Type} {text : Text Entry} {entry : Label Entry} {mapping : Mapping}
  {state first second middle after : AllocatorState} {heap : Layout} {block : Block}
  {hhdmOffset t stack : ℕ} {core : X86.Core}

/-- `restore_context` loads what the record holds. -/
theorem starts_of_made (h : Made hhdmOffset state t middle stack after)
    (hcore : Dispatching hhdmOffset text entry state core) :
    Starts state stack (X86.run restoreContext core) := by
  obtain ⟨t', memory, below, ⟨middle', stack', after', hrecord, -, hstack, rfl⟩, hagree, hrdi,
    htop, hhigh, hapart⟩ := hcore
  obtain ⟨rfl, rfl⟩ := Prod.mk.inj (Option.some.inj (h.record.symm.trans hrecord))
  obtain ⟨rfl, rfl⟩ := Prod.mk.inj (Option.some.inj (h.stack_eq.symm.trans hstack))
  have hbound := h.stack_lt
  have hlow := le_stackTop stack
  have hend := stackTop_le stack
  have hrsp : load64 core.memory (t + field .rsp) = stackTop stack - 32 := by
    rw [load64_of_agree hagree (field_within t .rsp), load64_taskInitStack_rsp hbound]
  have hfield (r : X86.Register) (hr : r ≠ .rsp) :
      load64 core.memory (t + field r) = load64 middle.bytes (t + field r) := by
    have hfirst := le_field r
    have hlast := field_add_le r
    rw [load64_of_agree hagree (field_within t r),
      h.load64_context hfirst (by omega) (field_spaced hr)]
  have hflags : load64 core.memory (t + (taskContext + contextRflags)) =
      load64 middle.bytes (t + (taskContext + contextRflags)) := by
    rw [load64_of_agree hagree (rflags_within t),
      h.load64_context (by decide) (by decide) (Or.inr (by decide))]
  have hrestored : Restored core t below _ (X86.run restoreContext core) :=
    run_restoreContext hrdi htop hhigh h.record_le hapart (by omega)
  have hsize (r : X86.Register) : field r + 8 ≤ taskSize := (field_add_le r).trans (by decide)
  refine ⟨fun node hnode ↦ ⟨fun r hr ↦ ?_, ?_⟩, fun hnone ↦ ⟨fun r hr ↦ ?_, ?_⟩, ?_⟩
  · rw [hrestored.reg r hr, hfield r hr]
    exact h.found.load64_reused hnode (hsize r)
  · rw [hrestored.rflags, hflags, h.found.load64_reused hnode (by decide)]
  · rw [hrestored.reg r hr, hfield r hr]
    exact h.found.load64_zeroed hnone (hsize r)
  · rw [hrestored.rflags, hflags, h.found.load64_zeroed hnone (by decide)]
  · rw [hrestored.rsp, hrsp]
    omega

/-- Some core dispatches the task. -/
theorem exists_dispatching (h : Made hhdmOffset state t middle stack after)
    (text : Text Entry) (entry : Label Entry) :
    ∃ core, Dispatching hhdmOffset text entry state core := by
  let core : X86.Core :=
    { reg := Function.update (fun _ ↦ t) .rsp 8
      rflags := 0
      rip := 0
      gs := fun _ ↦ 0
      memory := taskInitStack text t stack entry after.bytes }
  refine ⟨core, t, _, 0, ⟨middle, stack, after, h.record, h.ne_zero, h.stack_eq, rfl⟩,
    fun x _ ↦ rfl, rfl, rfl, by norm_num, Or.inr ?_⟩
  simp only [Extent.stop, taskContext]
  omega

/-- A task that is dispatched has a record and a stack. -/
theorem made_of_dispatching (h : InOrder hhdmOffset state)
    (hanswered : Answered hhdmOffset state)
    (hcore : Dispatching hhdmOffset text entry state core) :
    ∃ t middle stack after, Made hhdmOffset state t middle stack after := by
  obtain ⟨hoffset, hlock, mapping, heap, rfl, hheap⟩ := h
  apply exists_made hheap hlock
  by_contra hrefused
  obtain ⟨t, -, -, ⟨middle, -, -, hrecord, hne, -⟩, -⟩ := hcore
  rw [hheap.kmalloc_refused hlock hoffset (by decide) hrefused (hanswered.resolve_left hrefused)]
    at hrecord
  exact hne (Prod.mk.inj (Option.some.inj hrecord)).1.symm

/-- Heaps with equal metadata give the stack at the same address. -/
theorem stack_unique {u again : ℕ} {middle' after' : AllocatorState}
    (h : Made hhdmOffset first t middle stack after)
    (hother : Made hhdmOffset second u middle' again after') (halike : Alike first second)
    (hsymm : Alike second first) (hsound : Frames.Sound first.context.freelist) :
    again = stack := by
  have hfreelist : middle'.context.freelist = middle.context.freelist :=
    h.found.freelist_eq hother.found (halike.withLock 1) (hsymm.withLock 1) hsound
  have hcount : frameCounts 4096 = 2 := frameCounts_of_lt (by norm_num)
  rw [pointer_kmalloc_large h.sound h.lock_eq (by norm_num) (by rw [hcount]; norm_num) h.stack_eq,
    pointer_kmalloc_large hother.sound hother.lock_eq (by norm_num) (by rw [hcount]; norm_num)
      hother.stack_eq, hfreelist]

/-- Heaps with equal metadata start a task alike exactly if the leftovers agree. -/
theorem startsAlike_iff (hfirst : InOrder hhdmOffset first) (hsecond : InOrder hhdmOffset second)
    (halike : Alike first second) (hanswered : Answered hhdmOffset first)
    (hanswered' : Answered hhdmOffset second) :
    StartsAlike hhdmOffset text entry first second ↔ LeftoversAgree first second := by
  have hsymm := hfirst.alike_symm halike
  constructor
  · intro hstarts node hnode
    have hnode' := hnode.alike halike
    obtain ⟨t, middle, stack, after, hmade⟩ := hfirst.made_of_reuses hnode
    obtain ⟨u, middle', again, after', hmade'⟩ := hsecond.made_of_reuses hnode'
    obtain ⟨core, hcore⟩ := exists_dispatching hmade text entry
    obtain ⟨other, hother⟩ := exists_dispatching hmade' text entry
    obtain ⟨hregs, hflags⟩ := hstarts core other hcore hother
    obtain ⟨hfields, hrflags⟩ := (starts_of_made hmade hcore).reused node hnode
    obtain ⟨hfields', hrflags'⟩ := (starts_of_made hmade' hother).reused node hnode'
    constructor
    · intro r hr
      rw [← hfields' r hr, ← hfields r hr, hregs r]
    · rw [← hrflags', ← hrflags, hflags]
  · intro hleft core other hcore hother
    obtain ⟨t, middle, stack, after, hmade⟩ := made_of_dispatching hfirst hanswered hcore
    obtain ⟨u, middle', again, after', hmade'⟩ := made_of_dispatching hsecond hanswered' hother
    have hstarts := starts_of_made hmade hcore
    have hstarts' := starts_of_made hmade' hother
    obtain rfl := stack_unique hmade hmade' halike hsymm hfirst.sound
    have hregs : (∀ r, r ≠ .rsp → (X86.run restoreContext other).reg r =
        (X86.run restoreContext core).reg r) ∧
          (X86.run restoreContext other).rflags = (X86.run restoreContext core).rflags := by
      by_cases hnone : ∀ node, ¬ Reuses first taskSize node
      · obtain ⟨hfields, hrflags⟩ := hstarts.zeroed hnone
        obtain ⟨hfields', hrflags'⟩ :=
          hstarts'.zeroed fun node hnode ↦ hnone node (hnode.alike hsymm)
        refine ⟨fun r hr ↦ ?_, hrflags'.trans hrflags.symm⟩
        rw [hfields' r hr, hfields r hr]
      · push Not at hnone
        obtain ⟨node, hnode⟩ := hnone
        obtain ⟨hfields, hrflags⟩ := hstarts.reused node hnode
        obtain ⟨hfields', hrflags'⟩ := hstarts'.reused node (hnode.alike halike)
        obtain ⟨hsame, hsameFlags⟩ := hleft node hnode
        refine ⟨fun r hr ↦ ?_, ?_⟩
        · rw [hfields' r hr, hfields r hr, hsame r hr]
        · rw [hrflags', hrflags, hsameFlags]
    refine ⟨fun r ↦ ?_, hregs.2⟩
    by_cases hr : r = .rsp
    · rw [hr, hstarts'.rsp, hstarts.rsp]
    · exact hregs.1 r hr

/-- Two reachable heaps with equal metadata start a task alike exactly if it comes from a new frame
or the leftovers in the node it reuses agree. -/
theorem start_state_iff {config other : HeapConfig} (hfirst : Reached hhdmOffset config)
    (hsecond : Reached hhdmOffset other) (halike : Alike config.state other.state)
    (hanswered : Answered hhdmOffset config.state) (hanswered' : Answered hhdmOffset other.state) :
    StartsAlike hhdmOffset text entry config.state other.state ↔
      LeftoversAgree config.state other.state :=
  startsAlike_iff hfirst.inOrder hsecond.inOrder halike hanswered hanswered'

/-- Right after boot a task starts alike whatever memory was full of. -/
theorem start_state_fourFrames :
    StartsAlike 0 Dispatched.smallText (.entry ()) (fourFrames 0).state (fourFrames 255).state := by
  have hrepresents := (booted_fourFrames 0).tracks.represents
  refine (start_state_iff (reached_fourFrames 0) (reached_fourFrames 255)
    (hrepresents.alike (booted_fourFrames 255).tracks.represents rfl)
    (Or.inl (granted_fourFrames 0)) (Or.inl (granted_fourFrames 255))).mpr fun node hnode ↦ ?_
  obtain ⟨page, hpage, -⟩ := hrepresents.reuses_room hnode
  exact absurd hpage List.not_mem_nil

/-- Two records that were given back with different values in one byte differ in their node. -/
theorem differInNodes_of_returned {middle : AllocatorState} {page : Page} {offset : ℕ}
    {value leftover : UInt8} {config other : HeapConfig}
    (h : Returned mapping middle page offset value config)
    (hother : Returned mapping middle page offset leftover other) :
    Alike config.state other.state ∧ DifferInNodes config.state other.state := by
  have hpage := List.mem_singleton_self page
  have halike : Alike config.state other.state :=
    h.represents.alike hother.represents (hother.context_eq.trans h.context_eq.symm)
  have hat := (h.represents.pages page hpage).nodes
  have hpath := hat.path
  rw [h.nodes] at hpath
  have hword := (h.represents.page_facts hpage).2.2
  have hnext : Word64.add (page.base + 32) 8 = page.base + 40 := Word64.add_of_lt (by omega)
  have hlength : load64 config.state.bytes (page.base + 32) = 4040 :=
    hat.lengths ⟨page.base + 32, 4040⟩ (by rw [h.nodes]; exact List.mem_singleton_self _)
  have hfree : FreeNode config.state (page.base + 32) :=
    ⟨_, page.base, _, h.represents.chain, List.mem_singleton_self _, hpath,
      List.mem_singleton_self _⟩
  obtain ⟨-, -, hhead⟩ :=
    halike.pages _ h.represents.chain page.base (List.mem_singleton_self _)
  obtain ⟨hlink, hsame⟩ := halike.nodes _ h.represents.chain page.base
    (List.mem_singleton_self _) _ hpath (page.base + 32) (List.mem_singleton_self _)
  rw [nodeNext, nodeNext, hnext] at hlink
  refine ⟨halike, fun x hx ↦ ?_⟩
  have hdata := hx _ hfree
  rw [hlength] at hdata
  simp only [Extent.Holds, Extent.stop] at hdata
  by_cases hin : page.base ≤ x ∧ x < page.base + 8
  · exact eq_of_load64_eq hhead hin.1 hin.2
  by_cases hin : page.base + 32 ≤ x ∧ x < page.base + 40
  · exact eq_of_load64_eq hsame hin.1 (by omega)
  by_cases hin : page.base + 40 ≤ x ∧ x < page.base + 48
  · exact eq_of_load64_eq hlink hin.1 (by omega)
  rw [h.kept x, hother.kept x]
  all_goals
    simp only [Extent.Holds, Extent.stop]
    omega

/-- What was left in the node decides the flags of a new task. -/
theorem start_state_leaks : ∃ (t : ℕ) (config other : HeapConfig), Leaves t 152 0 config ∧
    Leaves t 152 1 other ∧ Reached 0 config ∧ Reached 0 other ∧ Alike config.state other.state ∧
    DifferInNodes config.state other.state ∧ Answered 0 config.state ∧ Answered 0 other.state ∧
    ¬ StartsAlike 0 Dispatched.smallText (.entry ()) config.state other.state := by
  obtain ⟨mapping, middle, page, -, hreturned⟩ :=
    exists_returned (show 152 + 0 < taskSize by decide)
  obtain ⟨config, hconfig⟩ := hreturned 0
  obtain ⟨other, hother⟩ := hreturned 1
  obtain ⟨halike, hdiffer⟩ := differInNodes_of_returned hconfig hother
  have hanswered : Answered 0 config.state := Or.inl hconfig.granted
  have hanswered' : Answered 0 other.state := Or.inl hother.granted
  refine ⟨page.base + 56, config, other, hconfig.leaves, hother.leaves, hconfig.reached,
    hother.reached, halike, hdiffer, hanswered, hanswered', fun hstarts ↦ ?_⟩
  have hleft := (startsAlike_iff hconfig.reached.inOrder hother.reached.inOrder halike hanswered
    hanswered').mp hstarts
  have haddress : page.base + 32 + 24 + (taskContext + contextRflags) = page.base + 56 + 152 := by
    simp only [taskContext, contextRflags]
  have hbit := congrArg (fun flags ↦ flags.testBit 0) (hleft _ hconfig.reuses).2
  rw [haddress, X86.testBit_flagsOf (i := 0) rfl rfl, X86.testBit_flagsOf (i := 0) rfl rfl] at hbit
  have hclear := hconfig.testBit_word (Nat.succ_pos 7)
  have hset := hother.testBit_word (Nat.succ_pos 7)
  rw [Nat.mul_zero] at hclear hset
  rw [hclear, hset] at hbit
  exact absurd hbit (by decide)

end StartState

end SideHOS.Tasks.StartState
