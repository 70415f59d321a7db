import SideHOS.Kernel.Heap
import SideHOS.Sharing.Interleaving

/-!
# Concurrent heap calls

`kmalloc` and `kfree` on any number of processors.  Each of their return paths releases
`memory_lock` exactly once and as its last access, and nothing else in them touches the lock, so
that the calls exclude one another and behave as if they were made one after another.
-/

namespace SideHOS.Kernel

open Machine.Word64 Sharing Sharing.Program

inductive HeapCall where
  | kmalloc (size : ℕ)
  | kfree (address : ℕ)

inductive HeapAnswer where
  | pointer (address : ℕ)
  | status (ok : Bool)
  deriving DecidableEq

def heapBody (hhdmOffset : ℕ) : HeapCall → Code HeapAnswer
  | .kmalloc size => do
    let address ← kmalloc hhdmOffset size
    pure (.pointer address)
  | .kfree address => do
    let ok ← kfree hhdmOffset address
    pure (.status ok)

def LockHeld (state : AllocatorState) : Prop := state.memoryLock ≠ 0

theorem lockSemantics : LockSemantics exec .lockAcquire .lockRelease LockHeld where
  acquire_free state hfree := by
    have hzero : state.memoryLock = 0 := not_not.mp hfree
    simp [exec, hzero, LockHeld]
  acquire_held state hheld := if_neg hheld
  release_free state := by simp [exec, LockHeld]
  other operation hacquire hrelease state := by
    cases operation <;> first | exact Iff.rfl | contradiction

section LockFree

/-- The code between the acquisition and the release of `memory_lock`. -/
abbrev Unlocked {α : Type} (code : Code α) : Prop := LockFree .lockAcquire .lockRelease code

variable {α : Type}

theorem unlocked_access {operation : Access} {next : ℕ → Code α}
    (hacquire : operation ≠ .lockAcquire) (hrelease : operation ≠ .lockRelease)
    (hnext : ∀ answer, Unlocked (next answer)) : Unlocked (perform operation >>= next) :=
  lockFree_bind (lockFree_perform hacquire hrelease) hnext

theorem unlocked_ite {condition : Prop} [Decidable condition] {first second : Code α}
    (hfirst : Unlocked first) (hsecond : Unlocked second) :
    Unlocked (if condition then first else second) := by
  split <;> assumption

theorem unlocked_memset (pointer : ℕ) (value : UInt8) (index count : ℕ) :
    Unlocked (memset pointer value index count) := by
  induction count generalizing index with
  | zero => exact lockFree_pure _
  | succ count ih => exact unlocked_access nofun nofun fun _ ↦ ih _

theorem unlocked_takeFrame (hhdmOffset segment : ℕ) : Unlocked (takeFrame hhdmOffset segment) := by
  refine unlocked_access nofun nofun fun _ ↦ lockFree_bind ?_ fun _ ↦ ?_
  · exact unlocked_access nofun nofun fun _ ↦ lockFree_pure _
  · refine unlocked_access nofun nofun fun _ ↦ unlocked_access nofun nofun fun _ ↦
      lockFree_bind (unlocked_memset _ _ _ _) fun _ ↦ ?_
    repeat' refine unlocked_access nofun nofun fun _ ↦ ?_
    exact lockFree_pure _

theorem unlocked_allocateFrameFrom (hhdmOffset fuel segmentCursor : ℕ) :
    Unlocked (allocateFrameFrom hhdmOffset fuel segmentCursor) := by
  induction fuel generalizing segmentCursor with
  | zero => trivial
  | succ fuel ih =>
    refine unlocked_access nofun nofun fun _ ↦ unlocked_ite ?_ (lockFree_pure _)
    exact unlocked_access nofun nofun fun _ ↦ unlocked_ite (unlocked_takeFrame _ _) (ih _)

theorem unlocked_takeFrames (hhdmOffset count segment : ℕ) :
    Unlocked (takeFrames hhdmOffset count segment) := by
  refine unlocked_access nofun nofun fun _ ↦ lockFree_bind ?_ fun _ ↦ ?_
  · exact unlocked_access nofun nofun fun _ ↦ lockFree_pure _
  · refine unlocked_access nofun nofun fun _ ↦ unlocked_access nofun nofun fun _ ↦
      lockFree_bind (unlocked_memset _ _ _ _) fun _ ↦ ?_
    repeat' refine unlocked_access nofun nofun fun _ ↦ ?_
    exact lockFree_pure _

theorem unlocked_allocateFramesFrom (hhdmOffset count fuel segmentCursor : ℕ) :
    Unlocked (allocateFramesFrom hhdmOffset count fuel segmentCursor) := by
  induction fuel generalizing segmentCursor with
  | zero => trivial
  | succ fuel ih =>
    refine unlocked_access nofun nofun fun _ ↦ unlocked_ite ?_ (lockFree_pure _)
    exact unlocked_access nofun nofun fun _ ↦ unlocked_ite (ih _) (unlocked_takeFrames _ _ _)

theorem unlocked_memoryFreeFrames (physical frameCount : ℕ) :
    Unlocked (memoryFreeFrames physical frameCount) := by
  refine unlocked_access nofun nofun fun _ ↦ ?_
  repeat' refine unlocked_access nofun nofun fun _ ↦ ?_
  exact lockFree_pure _

theorem unlocked_appendFrame (physical : ℕ) : Unlocked (appendFrame physical) := by
  refine unlocked_access nofun nofun fun _ ↦ unlocked_ite (lockFree_pure _) ?_
  repeat' refine unlocked_access nofun nofun fun _ ↦ ?_
  exact lockFree_pure _

theorem unlocked_freeFrameFrom (physical fuel segmentCursor : ℕ) :
    Unlocked (freeFrameFrom physical fuel segmentCursor) := by
  induction fuel generalizing segmentCursor with
  | zero => trivial
  | succ fuel ih =>
    refine unlocked_access nofun nofun fun _ ↦ unlocked_ite ?_ (unlocked_appendFrame _)
    refine unlocked_access nofun nofun fun _ ↦ unlocked_access nofun nofun fun _ ↦
      unlocked_ite ?_ ?_
    · repeat' refine unlocked_access nofun nofun fun _ ↦ ?_
      exact lockFree_pure _
    · generalize add physical size4KB = stop
      refine unlocked_access nofun nofun fun _ ↦ unlocked_ite ?_ (ih _)
      repeat' refine unlocked_access nofun nofun fun _ ↦ ?_
      exact lockFree_pure _

theorem unlocked_pageWalk (totalSize fuel page : ℕ) : Unlocked (pageWalk totalSize fuel page) := by
  induction fuel generalizing page with
  | zero => trivial
  | succ fuel ih =>
    refine unlocked_ite (lockFree_pure _) (unlocked_access nofun nofun fun _ ↦ ?_)
    exact unlocked_ite (unlocked_access nofun nofun fun _ ↦ ih _) (lockFree_pure _)

theorem unlocked_nodeSearch (totalSize fuel prev node : ℕ) :
    Unlocked (nodeSearch totalSize fuel prev node) := by
  induction fuel generalizing prev node with
  | zero => trivial
  | succ fuel ih =>
    refine unlocked_ite (lockFree_pure _) (unlocked_access nofun nofun fun _ ↦ ?_)
    exact unlocked_ite (unlocked_access nofun nofun fun _ ↦ ih _ _) (lockFree_pure _)

theorem unlocked_maximumScan (fuel cursor maxSize : ℕ) :
    Unlocked (maximumScan fuel cursor maxSize) := by
  induction fuel generalizing cursor maxSize with
  | zero => trivial
  | succ fuel ih =>
    refine unlocked_ite (lockFree_pure _) (unlocked_access nofun nofun fun _ ↦ unlocked_ite ?_ ?_)
    · exact unlocked_access nofun nofun fun _ ↦ unlocked_access nofun nofun fun _ ↦ ih _ _
    · exact unlocked_access nofun nofun fun _ ↦ ih _ _

theorem unlocked_relink (page prev replacement : ℕ) : Unlocked (relink page prev replacement) :=
  unlocked_ite (lockFree_perform nofun nofun) (lockFree_perform nofun nofun)

theorem unlocked_choosePage (hhdmOffset totalSize : ℕ) :
    Unlocked (choosePage hhdmOffset totalSize) := by
  have hnew : Unlocked (do
      let newPhysicalFrame ← memoryAllocateFrame hhdmOffset
      pure (addressPhysicalToVirtual hhdmOffset newPhysicalFrame)) :=
    lockFree_bind (unlocked_allocateFrameFrom _ _ _) fun _ ↦ lockFree_pure _
  refine unlocked_access nofun nofun fun _ ↦ lockFree_bind (unlocked_pageWalk _ _ _) fun _ ↦ ?_
  refine unlocked_ite hnew (unlocked_access nofun nofun fun _ ↦ ?_)
  exact unlocked_ite hnew (lockFree_pure _)

theorem unlocked_insertWalk (node fuel prev cursor : ℕ) :
    Unlocked (insertWalk node fuel prev cursor) := by
  induction fuel generalizing prev cursor with
  | zero => trivial
  | succ fuel ih =>
    refine unlocked_ite (lockFree_pure _) (unlocked_ite ?_ (lockFree_pure _))
    exact unlocked_access nofun nofun fun _ ↦ ih _ _

theorem unlocked_mergeLoop (fuel mergeCursor : ℕ) : Unlocked (mergeLoop fuel mergeCursor) := by
  induction fuel generalizing mergeCursor with
  | zero => trivial
  | succ fuel ih =>
    refine unlocked_ite (lockFree_pure _) (unlocked_access nofun nofun fun _ ↦ ?_)
    refine unlocked_ite (lockFree_pure _) (unlocked_access nofun nofun fun _ ↦
      unlocked_access nofun nofun fun _ ↦ unlocked_ite ?_ ?_)
    · repeat' refine unlocked_access nofun nofun fun _ ↦ ?_
      exact ih _
    · exact unlocked_access nofun nofun fun _ ↦ ih _

end LockFree

section Guarded

/-- Code that releases `memory_lock` once, as its last access. -/
abbrev Releasing {α : Type} (code : Code α) : Prop := Guarded .lockAcquire .lockRelease code

variable {α : Type}

theorem releasing_access {operation : Access} {next : ℕ → Code α}
    (hacquire : operation ≠ .lockAcquire) (hrelease : operation ≠ .lockRelease)
    (hnext : ∀ answer, Releasing (next answer)) : Releasing (perform operation >>= next) :=
  guarded_bind (lockFree_perform hacquire hrelease) hnext

theorem releasing_ite {condition : Prop} [Decidable condition] {first second : Code α}
    (hfirst : Releasing first) (hsecond : Releasing second) :
    Releasing (if condition then first else second) := by
  split <;> assumption

theorem releasing_carveNode (size totalSize page prev node : ℕ) :
    Releasing (carveNode size totalSize page prev node) := by
  have hend (replacement value : ℕ) : Releasing (do
      let _ ← relink page prev replacement
      let head ← loadPageFreelist page
      let maxSize ← maximumScan walkFuel head 0
      let _ ← storePageLargest page maxSize
      let _ ← perform .lockRelease
      pure value) :=
    guarded_bind (unlocked_relink _ _ _) fun _ ↦ releasing_access nofun nofun fun _ ↦
      guarded_bind (unlocked_maximumScan _ _ _) fun _ ↦ releasing_access nofun nofun fun _ ↦
        guarded_release _
  refine releasing_access nofun nofun fun _ ↦ releasing_access nofun nofun fun _ ↦
    releasing_access nofun nofun fun _ ↦ releasing_ite ?_ ?_
  · exact releasing_access nofun nofun fun _ ↦ hend _ _
  · exact releasing_access nofun nofun fun _ ↦ releasing_access nofun nofun fun _ ↦ hend _ _

theorem releasing_kmallocSmall (hhdmOffset size : ℕ) :
    Releasing (kmallocSmall hhdmOffset size) := by
  refine guarded_bind (unlocked_choosePage _ _) fun _ ↦ releasing_access nofun nofun fun _ ↦
    guarded_bind (unlocked_nodeSearch _ _ _ _) fun _ ↦ ?_
  exact releasing_ite (guarded_release _) (releasing_carveNode _ _ _ _ _)

theorem releasing_kmallocLarge (hhdmOffset size : ℕ) : Releasing (kmallocLarge hhdmOffset size) :=
  guarded_bind (unlocked_allocateFramesFrom _ _ _ _) fun _ ↦ guarded_release _

theorem releasing_kfreeLarge (physicalFrame size : ℕ) : Releasing (kfreeLarge physicalFrame size) :=
  guarded_bind (unlocked_memoryFreeFrames _ _) fun _ ↦ guarded_release _

theorem releasing_kfreeSmall (virtualFrame base : ℕ) :
    Releasing (kfreeSmall virtualFrame base) := by
  refine releasing_access nofun nofun fun _ ↦ releasing_access nofun nofun fun _ ↦
    releasing_access nofun nofun fun _ ↦ guarded_bind (unlocked_insertWalk _ _ _ _) fun _ ↦
      releasing_ite ?_ ?_
  all_goals
    refine releasing_access nofun nofun fun _ ↦ releasing_access nofun nofun fun _ ↦ ?_
    exact guarded_bind (unlocked_mergeLoop _ _) fun _ ↦ guarded_release _

/-- Answering is no access. -/
theorem releasing_answer {code : Code α} {β : Type} (answer : α → β) (h : Releasing code) :
    Releasing (code >>= fun value ↦ pure (answer value)) := by
  change Releasing (code.bind _)
  induction code with
  | done value => exact h.elim
  | access operation next ih =>
    rcases h with ⟨rfl, hdone⟩ | ⟨hacquire, hrelease, hnext⟩
    · refine Or.inl ⟨rfl, fun response ↦ ?_⟩
      obtain ⟨value, hvalue⟩ := hdone response
      refine ⟨answer value, ?_⟩
      change (next response).bind _ = _
      rw [hvalue]
      rfl
    · exact Or.inr ⟨hacquire, hrelease, fun response ↦ ih response (hnext response)⟩
  | await operation next ih => exact h.elim
  | diverge => trivial

/-- Every path through a heap call acquires the lock first and releases it once, last. -/
theorem sectioned_heapBody (hhdmOffset : ℕ) (call : HeapCall) :
    Sectioned .lockAcquire .lockRelease (heapBody hhdmOffset call) := by
  cases call with
  | kmalloc size =>
    exact ⟨_, rfl, releasing_answer _
      (releasing_ite (releasing_kmallocLarge _ _) (releasing_kmallocSmall _ _))⟩
  | kfree address =>
    refine ⟨_, rfl, releasing_answer _ (releasing_access nofun nofun fun _ ↦ ?_)⟩
    exact releasing_ite (releasing_kfreeLarge _ _) (releasing_kfreeSmall _ _)

end Guarded

section Interleaving

variable {Proc : Type} [DecidableEq Proc] {hhdmOffset : ℕ} {start : AllocatorState}
  {config : Config Access AllocatorState Proc HeapCall HeapAnswer}

/-- The ended calls of an interleaving answered, and where no processor is in its section the
allocator state is, what running the calls in the order they acquired the lock gives. -/
def SerialOutcome (hhdmOffset : ℕ) (start : AllocatorState)
    (config : Config Access AllocatorState Proc HeapCall HeapAnswer) : Prop :=
  ∃ completed answers state,
    runAll exec (heapBody hhdmOffset) completed start = some (answers, state) ∧
    completed <+: config.order ∧
    (∀ entry ∈ config.returned,
      Recorded completed answers entry.proc entry.call entry.position entry.result) ∧
    ((∀ proc, ¬ InSection (config.thread proc)) →
      completed = config.order ∧ config.shared = state)

omit [DecidableEq Proc] in
theorem serialOutcome_of_serialized {completed : List (Proc × HeapCall)}
    {answers : List HeapAnswer} (h : SerializedAs exec (heapBody hhdmOffset) .lockAcquire
      .lockRelease LockHeld start completed answers config) :
    SerialOutcome hhdmOffset start config := by
  have hlocked := h.exclusive.2
  obtain ⟨state, hrun, -, -, hreturned, hcase⟩ := h
  refine ⟨completed, answers, state, hrun, ?_, hreturned, fun hnone ↦ ?_⟩
  · rcases hcase with ⟨-, horder, -, -⟩ | ⟨-, holder, call, rest, horder, -⟩
    · rw [horder]
    · rw [horder]
      exact List.prefix_append _ _
  · rcases hcase with ⟨-, horder, hshared, -⟩ | ⟨hheld, -⟩
    · exact ⟨horder.symm, hshared⟩
    · obtain ⟨proc, hproc⟩ := hlocked.mp hheld
      exact absurd hproc (hnone proc)

/-- Concurrent `kmalloc` and `kfree` calls behave as if sequential: at most one call is between
its acquire and its release, which is while the lock is held; every path releases the lock once;
and answers and state are those of the calls made one after another. -/
theorem heap_calls_serializable (hfree : start.memoryLock = 0)
    (hreach : Reaches exec (heapBody hhdmOffset) start config) :
    (∀ first second, InSection (config.thread first) → InSection (config.thread second) →
        first = second) ∧
      (config.shared.memoryLock ≠ 0 ↔ ∃ proc, InSection (config.thread proc)) ∧
      (∀ call, Sectioned .lockAcquire .lockRelease (heapBody hhdmOffset call)) ∧
      SerialOutcome hhdmOffset start config := by
  obtain ⟨_, _, -, -, hserialized⟩ :=
    serialized_of_reaches lockSemantics (sectioned_heapBody hhdmOffset) (not_not.mpr hfree) hreach
  exact ⟨hserialized.exclusive.1, hserialized.exclusive.2, sectioned_heapBody hhdmOffset,
    serialOutcome_of_serialized hserialized⟩

def emptyHeap : AllocatorState where
  bytes _ := 0
  context := { freelist := { segments := fun _ ↦ ⟨0, 0⟩, cursor := 0 }, heapPages := 0 }
  memoryLock := 0

/-- The first processor has completed a call of `kmalloc` and spins in another, while the second is
in the critical section of its own. -/
theorem heap_calls_serializable_twoCallers :
    ∃ config : Config Access AllocatorState Bool HeapCall HeapAnswer,
      config.returned = [⟨true, .kmalloc 5000, some 0, .pointer 40⟩] ∧
        config.thread true = .running (.kmalloc 64) none (heapBody 0 (.kmalloc 64)) ∧
        InSection (config.thread false) ∧ SerialOutcome 0 emptyHeap config := by
  have hcompleted : Reaches exec (heapBody 0) emptyHeap _ :=
    steps_alone (initial emptyHeap) true rfl (sectioned_heapBody 0 (.kmalloc 5000)) rfl
  have hinvoked := hcompleted.tail (Step.invoke _ false (.kmalloc 8) rfl)
  have hspinning := hinvoked.tail (Step.invoke _ true (.kmalloc 64) rfl)
  have hinside := hspinning.tail
    (Step.pass _ false (.kmalloc 8) none .lockAcquire _ rfl (by decide))
  refine ⟨_, rfl, rfl, ⟨.kmalloc 8, _, _, rfl, ?_⟩, (heap_calls_serializable rfl hinside).2.2.2⟩
  exact fun _ h ↦ nomatch h

end Interleaving

end SideHOS.Kernel
