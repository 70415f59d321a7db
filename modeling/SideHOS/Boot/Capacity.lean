import SideHOS.Boot.Intake
import SideHOS.Frames.Run
import SideHOS.Kernel.Serialization
import SideHOS.Sharing.Trace
import SideHOS.Transition.Run

/-!
# The capacity of the segment table

Three places append to the segment table: the loop of `kmain`, `memory_free_frame` and
`memory_free_frames`.  Only `memory_free_frame` looks whether an entry is left.  This module finds
out which stores to the table each request performs, in any state that memory maps and requests
lead to, and what a request answers when no entry is left.
-/

namespace SideHOS.Boot

open Kernel Machine Machine.Word64 Machine.ByteMemory Sharing Sharing.Program Transition

/-! ## Requests -/

/-- A frame or heap operation, with any arguments. -/
inductive Request where
  | allocateFrame
  | allocateFrames (count : ℕ)
  | freeFrame (physical : ℕ)
  | freeFrames (physical frameCount : ℕ)
  | kmalloc (size : ℕ)
  | kfree (address : ℕ)

def requestBody (hhdmOffset : ℕ) : Request → Code HeapAnswer
  | .allocateFrame => do
    let frame ← memoryAllocateFrame hhdmOffset
    pure (.pointer frame)
  | .allocateFrames count => do
    let frame ← memoryAllocateFrames hhdmOffset count
    pure (.pointer frame)
  | .freeFrame physical => do
    let ok ← memoryFreeFrame physical
    pure (.status ok)
  | .freeFrames physical frameCount => do
    let ok ← memoryFreeFrames physical frameCount
    pure (.status ok)
  | .kmalloc size => heapBody hhdmOffset (.kmalloc size)
  | .kfree address => heapBody hhdmOffset (.kfree address)

def RequestStep (hhdmOffset : ℕ) (before : AllocatorState) (request : Request)
    (after : AllocatorState) : Prop :=
  ∃ answer, run exec (requestBody hhdmOffset request) before = some (answer, after)

/-- The entry of the segment table to which an access stores. -/
def segmentStore : Access → Option ℕ
  | .storeBase index _ => some index
  | .storeLength index _ => some index
  | _ => none

def sizeWord (state : AllocatorState) (address : ℕ) : ℕ :=
  load64 state.bytes (sub address sizeofU64)

/-- The request needs an entry of its own. -/
def NeedsEntry (state : AllocatorState) : Request → Prop
  | .freeFrame physical => Frames.freeSlot state.context.freelist physical = none
  | .freeFrames _ _ => True
  | .kfree address => smallPageMaximumSize < sizeWord state address
  | _ => False

/-- What is asked of a request: its stores to the table are to the entries of the table, and when
it needs an entry and none is left it answers `false` and leaves the table and `heap_pages`
alone. -/
structure Contained (hhdmOffset : ℕ) (state : AllocatorState) (request : Request) : Prop where
  stores : ∀ operation ∈ accesses exec (requestBody hhdmOffset request) state,
    ∀ index, segmentStore operation = some index → index ≤ 254
  full : state.context.freelist.cursor = 255 → NeedsEntry state request →
    ∃ after, run exec (requestBody hhdmOffset request) state = some (.status false, after) ∧
      after.context = state.context

/-- The request does not come to `memory_free_frames` with a full table. -/
def Roomy (state : AllocatorState) : Request → Prop
  | .freeFrames _ _ => state.context.freelist.cursor ≠ 255
  | .kfree address =>
      smallPageMaximumSize < sizeWord state address → state.context.freelist.cursor ≠ 255
  | _ => True

/-! ## Stores on all paths -/

section Stores

def CursorByte (state : AllocatorState) : Prop := state.context.freelist.cursor < 256

def ByteAnswer (operation : Access) (answer : ℕ) : Prop := operation = .loadCursor → answer < 256

def Below (operation : Access) : Prop := ∀ index, segmentStore operation = some index → index ≤ 254

theorem byteAnswer_of_ne {operation : Access} {answer : ℕ} (h : operation ≠ .loadCursor) :
    ByteAnswer operation answer := fun heq ↦ absurd heq h

theorem cursorByte_exec (operation : Access) (state : AllocatorState) (h : CursorByte state) :
    ByteAnswer operation (exec operation state).1 ∧ CursorByte (exec operation state).2 := by
  cases operation with
  | loadCursor => exact ⟨fun _ ↦ h, h⟩
  | storeCursor value => exact ⟨byteAnswer_of_ne (by simp), Nat.mod_lt _ (by norm_num)⟩
  | storeBase index value =>
    refine ⟨byteAnswer_of_ne (by simp), ?_⟩
    simp only [exec, MemoryContext.storeBase, CursorByte]
    split
    · exact h
    · exact Nat.mod_lt _ (by norm_num)
  | storeLength index value =>
    refine ⟨byteAnswer_of_ne (by simp), ?_⟩
    simp only [exec, MemoryContext.storeLength, CursorByte]
    split <;> exact h
  | lockAcquire =>
    refine ⟨byteAnswer_of_ne (by simp), ?_⟩
    simp only [exec, CursorByte]
    split <;> exact h
  | _ => exact ⟨byteAnswer_of_ne (by simp), h⟩

/-- Code whose stores to the table are to the entries of the table. -/
abbrev Bounded {α : Type} (code : Code α) : Prop := Uses ByteAnswer Below code

variable {α : Type}

theorem below_of_none {operation : Access} (h : segmentStore operation = none) :
    Below operation := by
  intro index hindex
  rw [h] at hindex
  cases hindex

theorem bounded_access {operation : Access} {next : ℕ → Code α}
    (hstore : segmentStore operation = none) (hnext : ∀ answer, Bounded (next answer)) :
    Bounded (perform operation >>= next) :=
  uses_access (below_of_none hstore) fun answer _ ↦ hnext answer

theorem bounded_storeLength {index value : ℕ} {next : ℕ → Code α} (hindex : index ≤ 254)
    (hnext : ∀ answer, Bounded (next answer)) :
    Bounded (perform (.storeLength index value) >>= next) :=
  uses_access (fun _ h ↦ Option.some.inj h ▸ hindex) fun answer _ ↦ hnext answer

theorem bounded_ite {condition : Prop} [Decidable condition] {first second : Code α}
    (hfirst : Bounded first) (hsecond : Bounded second) :
    Bounded (if condition then first else second) :=
  uses_ite (fun _ ↦ hfirst) fun _ ↦ hsecond

theorem bounded_memset (pointer : ℕ) (value : UInt8) (index count : ℕ) :
    Bounded (memset pointer value index count) := by
  induction count generalizing index with
  | zero => exact uses_pure _
  | succ count ih => exact bounded_access rfl fun _ ↦ ih _

theorem bounded_memoryNthSegment (segment n : ℕ) : Bounded (memoryNthSegment segment n) :=
  bounded_access rfl fun _ ↦ uses_pure _

theorem bounded_takeFrame (hhdmOffset : ℕ) {segment : ℕ} (hsegment : segment ≤ 254) :
    Bounded (takeFrame hhdmOffset segment) := by
  refine bounded_access rfl fun _ ↦ uses_bind (bounded_memoryNthSegment _ _) fun _ ↦
    bounded_access rfl fun _ ↦ bounded_storeLength hsegment fun _ ↦
      uses_bind (bounded_memset _ _ _ _) fun _ ↦ ?_
  repeat' refine bounded_access rfl fun _ ↦ ?_
  exact uses_pure _

theorem bounded_takeFrames (hhdmOffset count : ℕ) {segment : ℕ} (hsegment : segment ≤ 254) :
    Bounded (takeFrames hhdmOffset count segment) := by
  refine bounded_access rfl fun _ ↦ uses_bind (bounded_memoryNthSegment _ _) fun _ ↦
    bounded_access rfl fun _ ↦ bounded_storeLength hsegment fun _ ↦
      uses_bind (bounded_memset _ _ _ _) fun _ ↦ ?_
  repeat' refine bounded_access rfl fun _ ↦ ?_
  exact uses_pure _

/-- An entry that the allocation loops come to is in the table, whatever the cursor is. -/
theorem segment_le_of_int8 {segment cursor : ℕ} (hcursor : cursor < 256)
    (h : (segment : ℤ) < int8 cursor) : segment ≤ 254 := by
  unfold int8 at h
  split at h <;> omega

theorem bounded_allocateFrameFrom (hhdmOffset fuel segmentCursor : ℕ) :
    Bounded (allocateFrameFrom hhdmOffset fuel segmentCursor) := by
  induction fuel generalizing segmentCursor with
  | zero => trivial
  | succ fuel ih =>
    refine uses_access (below_of_none rfl) fun cursor hcursor ↦ uses_ite (fun hlt ↦ ?_)
      fun _ ↦ uses_pure _
    have hsegment := segment_le_of_int8 (hcursor rfl) hlt
    exact bounded_access rfl fun _ ↦ bounded_ite (bounded_takeFrame _ hsegment) (ih _)

theorem bounded_allocateFramesFrom (hhdmOffset count fuel segmentCursor : ℕ) :
    Bounded (allocateFramesFrom hhdmOffset count fuel segmentCursor) := by
  induction fuel generalizing segmentCursor with
  | zero => trivial
  | succ fuel ih =>
    refine uses_access (below_of_none rfl) fun cursor hcursor ↦ uses_ite (fun hlt ↦ ?_)
      fun _ ↦ uses_pure _
    have hsegment := segment_le_of_int8 (hcursor rfl) hlt
    exact bounded_access rfl fun _ ↦ bounded_ite (ih _) (bounded_takeFrames _ _ hsegment)

theorem bounded_pageWalk (totalSize fuel page : ℕ) : Bounded (pageWalk totalSize fuel page) := by
  induction fuel generalizing page with
  | zero => trivial
  | succ fuel ih =>
    refine bounded_ite (uses_pure _) (bounded_access rfl fun _ ↦ ?_)
    exact bounded_ite (bounded_access rfl fun _ ↦ ih _) (uses_pure _)

theorem bounded_nodeSearch (totalSize fuel prev node : ℕ) :
    Bounded (nodeSearch totalSize fuel prev node) := by
  induction fuel generalizing prev node with
  | zero => trivial
  | succ fuel ih =>
    refine bounded_ite (uses_pure _) (bounded_access rfl fun _ ↦ ?_)
    exact bounded_ite (bounded_access rfl fun _ ↦ ih _ _) (uses_pure _)

theorem bounded_maximumScan (fuel cursor maxSize : ℕ) :
    Bounded (maximumScan fuel cursor maxSize) := by
  induction fuel generalizing cursor maxSize with
  | zero => trivial
  | succ fuel ih =>
    refine bounded_ite (uses_pure _) (bounded_access rfl fun _ ↦ bounded_ite ?_ ?_)
    · exact bounded_access rfl fun _ ↦ bounded_access rfl fun _ ↦ ih _ _
    · exact bounded_access rfl fun _ ↦ ih _ _

theorem bounded_relink (page prev replacement : ℕ) : Bounded (relink page prev replacement) :=
  bounded_ite (uses_perform (below_of_none rfl)) (uses_perform (below_of_none rfl))

theorem bounded_insertWalk (node fuel prev cursor : ℕ) :
    Bounded (insertWalk node fuel prev cursor) := by
  induction fuel generalizing prev cursor with
  | zero => trivial
  | succ fuel ih =>
    refine bounded_ite (uses_pure _) (bounded_ite ?_ (uses_pure _))
    exact bounded_access rfl fun _ ↦ ih _ _

theorem bounded_mergeLoop (fuel mergeCursor : ℕ) : Bounded (mergeLoop fuel mergeCursor) := by
  induction fuel generalizing mergeCursor with
  | zero => trivial
  | succ fuel ih =>
    refine bounded_ite (uses_pure _) (bounded_access rfl fun _ ↦ bounded_ite (uses_pure _) ?_)
    refine bounded_access rfl fun _ ↦ bounded_access rfl fun _ ↦ bounded_ite ?_ ?_
    · repeat' refine bounded_access rfl fun _ ↦ ?_
      exact ih _
    · exact bounded_access rfl fun _ ↦ ih _

theorem bounded_carveNode (size totalSize page prev node : ℕ) :
    Bounded (carveNode size totalSize page prev node) := by
  have hend (replacement value : ℕ) : Bounded (do
      let _ ← relink page prev replacement
      let head ← loadPageFreelist page
      let maxSize ← maximumScan walkFuel head 0
      let _ ← storePageLargest page maxSize
      let _ ← perform .lockRelease
      pure value) :=
    uses_bind (bounded_relink _ _ _) fun _ ↦ bounded_access rfl fun _ ↦
      uses_bind (bounded_maximumScan _ _ _) fun _ ↦ bounded_access rfl fun _ ↦
        bounded_access rfl fun _ ↦ uses_pure _
  refine bounded_access rfl fun _ ↦ bounded_access rfl fun _ ↦ bounded_access rfl fun _ ↦
    bounded_ite ?_ ?_
  · exact bounded_access rfl fun _ ↦ hend _ _
  · exact bounded_access rfl fun _ ↦ bounded_access rfl fun _ ↦ hend _ _

theorem bounded_choosePage (hhdmOffset totalSize : ℕ) :
    Bounded (choosePage hhdmOffset totalSize) := by
  have hnew : Bounded (do
      let newPhysicalFrame ← memoryAllocateFrame hhdmOffset
      pure (addressPhysicalToVirtual hhdmOffset newPhysicalFrame)) :=
    uses_bind (bounded_allocateFrameFrom _ _ _) fun _ ↦ uses_pure _
  refine bounded_access rfl fun _ ↦ uses_bind (bounded_pageWalk _ _ _) fun _ ↦
    bounded_ite hnew (bounded_access rfl fun _ ↦ ?_)
  exact bounded_ite hnew (uses_pure _)

theorem bounded_kmalloc (hhdmOffset size : ℕ) : Bounded (kmalloc hhdmOffset size) := by
  refine ⟨below_of_none rfl, bounded_ite ?_ ?_⟩
  · exact uses_bind (bounded_allocateFramesFrom _ _ _ _) fun _ ↦
      bounded_access rfl fun _ ↦ uses_pure _
  · refine uses_bind (bounded_choosePage _ _) fun _ ↦ bounded_access rfl fun _ ↦
      uses_bind (bounded_nodeSearch _ _ _ _) fun _ ↦ bounded_ite ?_ (bounded_carveNode _ _ _ _ _)
    exact bounded_access rfl fun _ ↦ uses_pure _

theorem bounded_kfreeSmall (virtualFrame base : ℕ) : Bounded (kfreeSmall virtualFrame base) := by
  refine bounded_access rfl fun _ ↦ bounded_access rfl fun _ ↦ bounded_access rfl fun _ ↦
    uses_bind (bounded_insertWalk _ _ _ _) fun _ ↦ bounded_ite ?_ ?_
  all_goals
    refine bounded_access rfl fun _ ↦ bounded_access rfl fun _ ↦ ?_
    exact uses_bind (bounded_mergeLoop _ _) fun _ ↦ bounded_access rfl fun _ ↦ uses_pure _

/-- Bounded code performs bounded accesses. -/
theorem Bounded.accesses {code : Code α} {state : AllocatorState} (h : Bounded code)
    (hcursor : CursorByte state) : ∀ operation ∈ accesses exec code state, Below operation :=
  h.forall_accesses cursorByte_exec hcursor

end Stores

section Free

variable {state : AllocatorState} {physical frameCount : ℕ}

theorem accesses_loadCursor {α : Type} (next : ℕ → Code α) :
    accesses exec (perform .loadCursor >>= next) state =
      .loadCursor :: accesses exec (next state.context.freelist.cursor) state := rfl

theorem accesses_loadBase {α : Type} (index : ℕ) (next : ℕ → Code α) :
    accesses exec (perform (.loadBase index) >>= next) state =
      .loadBase index :: accesses exec (next (state.context.freelist.segments index).base) state :=
  rfl

theorem accesses_loadLength {α : Type} (index : ℕ) (next : ℕ → Code α) :
    accesses exec (perform (.loadLength index) >>= next) state =
      .loadLength index ::
        accesses exec (next (state.context.freelist.segments index).length) state := rfl

/-- An entry is appended only while one is left. -/
theorem accesses_appendFrame (hcursor : CursorByte state) :
    ∀ operation ∈ accesses exec (appendFrame physical) state, Below operation := by
  unfold CursorByte at hcursor
  unfold appendFrame
  rw [accesses_loadCursor, accesses_ite, List.forall_mem_cons]
  refine ⟨below_of_none rfl, ?_⟩
  split
  · exact nofun
  · simp only [accesses_perform_bind, accesses_pure, exec, List.forall_mem_cons]
    simp [Below, segmentStore]
    omega

theorem accesses_freeFrameFrom (hcursor : CursorByte state) (fuel segmentCursor : ℕ) :
    ∀ operation ∈ accesses exec (freeFrameFrom physical fuel segmentCursor) state,
      Below operation := by
  induction fuel generalizing segmentCursor with
  | zero => exact nofun
  | succ fuel ih =>
    have hbyte : state.context.freelist.cursor < 256 := hcursor
    rw [freeFrameFrom, accesses_loadCursor, accesses_ite, List.forall_mem_cons]
    refine ⟨below_of_none rfl, ?_⟩
    split
    · rw [accesses_loadBase, accesses_loadLength, accesses_ite, List.forall_mem_cons,
        List.forall_mem_cons]
      refine ⟨below_of_none rfl, below_of_none rfl, ?_⟩
      split
      · simp only [accesses_perform_bind, accesses_pure, exec, List.forall_mem_cons]
        simp [Below, segmentStore]
        omega
      · rw [accesses_loadBase, accesses_ite, List.forall_mem_cons]
        refine ⟨below_of_none rfl, ?_⟩
        split
        · simp only [accesses_perform_bind, accesses_pure, exec, List.forall_mem_cons]
          simp [Below, segmentStore]
          omega
        · exact ih _
    · exact accesses_appendFrame hcursor

/-- `memory_free_frames` stores to the entry at the cursor. -/
theorem accesses_memoryFreeFrames (hroom : state.context.freelist.cursor ≤ 254) :
    ∀ operation ∈ accesses exec (memoryFreeFrames physical frameCount) state,
      Below operation := by
  unfold memoryFreeFrames
  simp only [accesses_perform_bind, accesses_pure, exec, List.forall_mem_cons]
  simp [Below, segmentStore, hroom]

end Free

section Request

variable {hhdmOffset : ℕ} {state after : AllocatorState} {request : Request}

theorem accesses_kfree_eq (address : ℕ) (hlock : state.memoryLock = 0) :
    accesses exec (kfree hhdmOffset address) state =
      .lockAcquire :: .load (sub address sizeofU64) ::
        if smallPageMaximumSize < sizeWord state address then
          accesses exec (kfreeLarge
            (addressVirtualToPhysical hhdmOffset (pointerFrame address)) (sizeWord state address))
            { state with memoryLock := 1 }
        else accesses exec (kfreeSmall (pointerFrame address) (sub address sizeofU64))
          { state with memoryLock := 1 } := by
  rw [kfree, accesses,
    show exec .lockAcquire state = (1, { state with memoryLock := 1 }) from if_pos hlock,
    if_neg Nat.one_ne_zero, accesses_perform_bind, accesses_ite]
  rfl

/-- The stores of `kfree`. -/
theorem accesses_kfree {address : ℕ} (hcursor : CursorByte state) (hlock : state.memoryLock = 0)
    (hroomy : Roomy state (.kfree address)) :
    ∀ operation ∈ accesses exec (kfree hhdmOffset address) state, Below operation := by
  rw [accesses_kfree_eq address hlock, List.forall_mem_cons, List.forall_mem_cons]
  refine ⟨below_of_none rfl, below_of_none rfl, ?_⟩
  split
  · next hlarge =>
    have hroom : state.context.freelist.cursor ≤ 254 := by
      have hfull : state.context.freelist.cursor ≠ 255 := hroomy hlarge
      unfold CursorByte at hcursor
      omega
    rw [kfreeLarge, accesses_bind]
    refine List.forall_mem_append.mpr ⟨accesses_memoryFreeFrames hroom, ?_⟩
    cases run exec (memoryFreeFrames _ _) _ with
    | none => exact nofun
    | some result => simp [Below, segmentStore]
  · exact (bounded_kfreeSmall _ _).accesses hcursor

/-- A roomy request stores to entries of the table only. -/
theorem accesses_requestBody (hcursor : CursorByte state) (hlock : state.memoryLock = 0)
    (hroomy : Roomy state request) :
    ∀ operation ∈ accesses exec (requestBody hhdmOffset request) state, Below operation := by
  cases request with
  | allocateFrame =>
    rw [requestBody, accesses_bind_pure]
    exact (bounded_allocateFrameFrom _ _ _).accesses hcursor
  | allocateFrames count =>
    rw [requestBody, accesses_bind_pure]
    exact (bounded_allocateFramesFrom _ _ _ _).accesses hcursor
  | freeFrame physical =>
    rw [requestBody, accesses_bind_pure]
    exact accesses_freeFrameFrom hcursor _ _
  | freeFrames physical frameCount =>
    rw [requestBody, accesses_bind_pure]
    refine accesses_memoryFreeFrames ?_
    have hfull : state.context.freelist.cursor ≠ 255 := hroomy
    unfold CursorByte at hcursor
    omega
  | kmalloc size =>
    rw [requestBody, heapBody, accesses_bind_pure]
    exact (bounded_kmalloc _ _).accesses hcursor
  | kfree address =>
    rw [requestBody, heapBody, accesses_bind_pure]
    exact accesses_kfree hcursor hlock hroomy

theorem contained_of_roomy (hcursor : CursorByte state) (hlock : state.memoryLock = 0)
    (hroomy : Roomy state request) : Contained hhdmOffset state request where
  stores := accesses_requestBody hcursor hlock hroomy
  full hfull hneeds := by
    cases request with
    | freeFrame physical =>
      refine ⟨state, ?_, rfl⟩
      have hrun : run exec (memoryFreeFrame physical) state = some (false, state) := by
        rw [Frames.run_freeFrame_search hfull.le, show Frames.freeSlot _ _ = none from hneeds,
          Option.elim_none, Frames.run_appendFrame hfull.le, if_pos hfull]
      rw [requestBody, run_bind_of_eq hrun, run_pure]
    | freeFrames physical frameCount => exact absurd hfull hroomy
    | kfree address => exact absurd hfull (hroomy hneeds)
    | _ => exact hneeds.elim

theorem roomy_of_contained (hlock : state.memoryLock = 0)
    (h : Contained hhdmOffset state request) : Roomy state request := by
  cases request with
  | freeFrames physical frameCount =>
    intro hfull
    have hstore := h.stores (.storeBase state.context.freelist.cursor physical) (by
      rw [requestBody, accesses_bind_pure, memoryFreeFrames, accesses_loadCursor]
      simp) _ rfl
    omega
  | kfree address =>
    intro hlarge hfull
    have hstore := h.stores (.storeBase state.context.freelist.cursor
        (addressVirtualToPhysical hhdmOffset (pointerFrame address))) (by
      rw [requestBody, heapBody, accesses_bind_pure, accesses_kfree_eq address hlock,
        if_pos hlarge, kfreeLarge, accesses_bind, memoryFreeFrames, accesses_loadCursor]
      simp) _ rfl
    omega
  | _ => trivial

theorem contained_iff_roomy (hcursor : CursorByte state) (hlock : state.memoryLock = 0) :
    Contained hhdmOffset state request ↔ Roomy state request :=
  ⟨roomy_of_contained hlock, contained_of_roomy hcursor hlock⟩

/-- Between requests the lock is free. -/
theorem lock_free_of_step (hlock : state.memoryLock = 0)
    (hstep : RequestStep hhdmOffset state request after) : after.memoryLock = 0 := by
  obtain ⟨answer, hrun⟩ := hstep
  have hfree : ¬ LockHeld state := not_not.mpr hlock
  have hkept (hunlocked : Unlocked (requestBody hhdmOffset request)) : after.memoryLock = 0 :=
    not_not.mp ((run_lockFree lockSemantics hunlocked hrun).not.mpr hfree)
  cases request with
  | allocateFrame =>
    exact hkept (lockFree_bind (unlocked_allocateFrameFrom _ _ _) fun _ ↦ lockFree_pure _)
  | allocateFrames count =>
    exact hkept (lockFree_bind (unlocked_allocateFramesFrom _ _ _ _) fun _ ↦ lockFree_pure _)
  | freeFrame physical =>
    exact hkept (lockFree_bind (unlocked_freeFrameFrom _ _ _) fun _ ↦ lockFree_pure _)
  | freeFrames physical frameCount =>
    exact hkept (lockFree_bind (unlocked_memoryFreeFrames _ _) fun _ ↦ lockFree_pure _)
  | kmalloc size =>
    rw [requestBody] at hrun
    exact not_not.mp (run_sectioned lockSemantics (sectioned_heapBody _ _) hrun)
  | kfree address =>
    rw [requestBody] at hrun
    exact not_not.mp (run_sectioned lockSemantics (sectioned_heapBody _ _) hrun)

theorem cursorByte_of_step (hcursor : CursorByte state)
    (hstep : RequestStep hhdmOffset state request after) : CursorByte after := by
  obtain ⟨answer, hrun⟩ := hstep
  exact run_holds (fun operation state h ↦ (cursorByte_exec operation state h).2) hcursor hrun

end Request

section Intake

variable {entries : List MemmapEntry}

theorem stores_foldl (entries : List MemmapEntry) (intake : Intake)
    (hcursor : intake.freelist.cursor = intake.stores.length % 256)
    (hstores : intake.stores = (List.range intake.stores.length).map fun k ↦ int8 (k % 256)) :
    (entries.foldl intakeEntry intake).stores =
      (List.range (intake.stores.length + (entries.filterMap segmentOf).length)).map
        fun k ↦ int8 (k % 256) := by
  induction entries generalizing intake with
  | nil => simpa using hstores
  | cons entry entries ih =>
    rw [List.foldl_cons, intakeEntry_eq]
    cases hsegment : segmentOf entry with
    | none =>
      rw [List.filterMap_cons_none hsegment]
      exact ih intake hcursor hstores
    | some segment =>
      have hlength : (intake.append segment).stores.length = intake.stores.length + 1 := by
        simp [Intake.append]
      have hnext : (intake.append segment).stores =
          (List.range (intake.append segment).stores.length).map fun k ↦ int8 (k % 256) := by
        rw [hlength, List.range_succ, List.map_append, ← hstores]
        simp [Intake.append, hcursor]
      have hkept : (intake.freelist.storeSegment (int8 intake.freelist.cursor) segment).cursor =
          intake.freelist.cursor := by
        unfold FreeList.storeSegment
        split <;> rfl
      rw [Option.elim_some, ih _ ?_ hnext, hlength, List.filterMap_cons_some hsegment,
        List.length_cons]
      · congr 2
        omega
      · rw [hlength]
        simp only [Intake.append, hkept]
        omega

/-- The loop stores at the cursor, read as signed, which is one more after each store. -/
theorem stores_kmainIntake (entries : List MemmapEntry) :
    (kmainIntake entries).stores =
      (List.range (entries.filterMap segmentOf).length).map fun k ↦ int8 (k % 256) := by
  rw [kmainIntake, stores_foldl entries emptyIntake rfl rfl, emptyIntake, List.length_nil,
    zero_add]

/-- The loop stores within the table if and only if it stores at most 128 segments. -/
theorem stores_kmainIntake_iff :
    (∀ index ∈ (kmainIntake entries).stores, 0 ≤ index ∧ index ≤ 254) ↔
      (entries.filterMap segmentOf).length ≤ 128 := by
  rw [stores_kmainIntake, List.forall_mem_map]
  simp only [List.mem_range]
  constructor
  · intro hstores
    by_contra hmany
    have hnegative := (hstores 128 (by omega)).1
    revert hnegative
    decide
  · intro hfew k hk
    rw [Nat.mod_eq_of_lt (by omega), int8_of_lt (by omega)]
    omega

theorem cursorByte_kmainIntake (entries : List MemmapEntry) :
    (kmainIntake entries).freelist.cursor < 256 := by
  have hfoldl (entries : List MemmapEntry) (intake : Intake)
      (hcursor : intake.freelist.cursor < 256) :
      (entries.foldl intakeEntry intake).freelist.cursor < 256 := by
    induction entries generalizing intake with
    | nil => exact hcursor
    | cons entry entries ih =>
      rw [List.foldl_cons, intakeEntry_eq]
      refine ih _ ?_
      cases segmentOf entry with
      | none => exact hcursor
      | some segment => exact Nat.mod_lt _ (by norm_num)
  exact hfoldl entries emptyIntake (by decide)

end Intake

/-! ## Histories -/

section Histories

variable {hhdmOffset : ℕ} {entries : List MemmapEntry} {start final : AllocatorState}
  {taken : List (Taken AllocatorState Request)} {request : Request}

/-- The allocator after the loop of `kmain`. -/
structure AfterIntake (entries : List MemmapEntry) (state : AllocatorState) : Prop where
  freelist : state.context.freelist = (kmainIntake entries).freelist
  heapPages : state.context.heapPages = 0
  lock : state.memoryLock = 0

/-- Over any memory map and any later history, all stores to the table are within it and a full
table is an atomic error if and only if at most 128 entries of the map become segments and
`memory_free_frames` is never called with a full table. -/
theorem segment_table_contained_iff (hboot : AfterIntake entries start)
    (hrun : Run (RequestStep hhdmOffset) start taken final) :
    ((∀ index ∈ (kmainIntake entries).stores, 0 ≤ index ∧ index ≤ 254) ∧
        (∀ t ∈ taken, Contained hhdmOffset t.before t.label) ∧
        Contained hhdmOffset final request) ↔
      (entries.filterMap segmentOf).length ≤ 128 ∧ (∀ t ∈ taken, Roomy t.before t.label) ∧
        Roomy final request := by
  have hstart : CursorByte start ∧ start.memoryLock = 0 := by
    refine ⟨?_, hboot.lock⟩
    unfold CursorByte
    rw [hboot.freelist]
    exact cursorByte_kmainIntake entries
  have hstep (before : AllocatorState) (request : Request) (after : AllocatorState)
      (h : CursorByte before ∧ before.memoryLock = 0)
      (hstep : RequestStep hhdmOffset before request after) :
      CursorByte after ∧ after.memoryLock = 0 :=
    ⟨cursorByte_of_step h.1 hstep, lock_free_of_step h.2 hstep⟩
  have hfinal := hrun.invariant (fun state ↦ CursorByte state ∧ state.memoryLock = 0)
    (fun _ ↦ True) hstart (fun before label after h hlast _ ↦ hstep before label after h hlast)
    fun _ _ ↦ trivial
  refine and_congr stores_kmainIntake_iff (and_congr ?_ (contained_iff_roomy hfinal.1 hfinal.2))
  exact Run.forall_iff hstart (fun before label after h hlast _ ↦ hstep before label after h hlast)
    (fun before label after h _ ↦ contained_iff_roomy h.1 h.2) hrun

/-- `Memory` after the loop, with this memory behind the direct map. -/
def afterIntake (entries : List MemmapEntry) (bytes : Memory) : AllocatorState where
  bytes := bytes
  context := { freelist := (kmainIntake entries).freelist, heapPages := 0 }
  memoryLock := 0

theorem afterIntake_afterIntake (entries : List MemmapEntry) (bytes : Memory) :
    AfterIntake entries (afterIntake entries bytes) := ⟨rfl, rfl, rfl⟩

/-- One usable page, which is freed once more. -/
theorem segment_table_contained_onePage :
    (∀ index ∈ (kmainIntake [⟨0x1000, 0x1000, 0⟩]).stores, 0 ≤ index ∧ index ≤ 254) ∧
      Contained 0 (afterIntake [⟨0x1000, 0x1000, 0⟩] fun _ ↦ 0) (.freeFrames 0x1000 1) := by
  have hroomy : Roomy (afterIntake [⟨0x1000, 0x1000, 0⟩] fun _ ↦ 0) (.freeFrames 0x1000 1) := by
    change (kmainIntake [⟨0x1000, 0x1000, 0⟩]).freelist.cursor ≠ 255
    decide
  obtain ⟨hstores, -, hcontained⟩ := (segment_table_contained_iff
    (afterIntake_afterIntake [⟨0x1000, 0x1000, 0⟩] fun _ ↦ 0) Run.nil).mpr
      ⟨by decide, nofun, hroomy⟩
  exact ⟨hstores, hcontained⟩

/-- A memory map with this many usable entries of one page. -/
def pageEntries (count : ℕ) : List MemmapEntry :=
  (List.range count).map fun k ↦ ⟨0x2000 * k + 0x1000, 0x1000, 0⟩

/-- The 129th segment goes before the table. -/
theorem segment_stored_outside :
    ¬ ∀ index ∈ (kmainIntake (pageEntries 129)).stores, 0 ≤ index ∧ index ≤ 254 := by
  have hlength : ((pageEntries 129).filterMap segmentOf).length = 129 := by
    decide +kernel
  rw [stores_kmainIntake_iff, hlength]
  decide

end Histories

end SideHOS.Boot
