import SideHOS.Heap.Footprint
import SideHOS.Kernel.Serialization
import SideHOS.Sharing.Custody

/-!
# Owners of blocks on many processors

`kmalloc` and `kfree` run on any number of processors, each access a step of its own, while the
owners of blocks write to them without `memory_lock`, also in the middle of somebody's call.  A
caller of `kfree` gives up the block it frees when it makes the call.  As long as the calls that get
the lock are granted what they ask for, nobody meets the memory of anybody else.
-/

namespace SideHOS.Heap

open Kernel Linked Machine Machine.Word64 Machine.ByteMemory Sharing Sharing.Program Transition

def contents (bytes : Memory) (extent : Extent) : List UInt8 :=
  (List.range extent.length).map fun k ↦ bytes (extent.start + k)

/-- `kmalloc` is called with a size it can serve, `kfree` with the address of a block that its
caller gives up. -/
def Permitted : HeapCall → Option Extent → Prop
  | .kmalloc size, none => 1 ≤ size ∧ size ≤ maximumSize
  | .kfree address, some payload => payload.start = address
  | _, _ => False

def payloadGiven : HeapCall → HeapAnswer → Option Extent
  | .kmalloc size, .pointer address => if address = 0 then none else some ⟨address, size⟩
  | _, _ => none

/-- `kmalloc` does not fail, and `kfree` reports success. -/
def Succeeds : HeapCall → HeapAnswer → Prop
  | .kmalloc _, answer => ∃ address, answer = .pointer address ∧ address ≠ 0
  | .kfree _, answer => answer = .status true

/-- The frames `kmalloc` asks for are there, and the table has room for the frames `kfree` may give
back. -/
def Admits : HeapCall → AllocatorState → Prop
  | .kmalloc size, state => Granted size state
  | .kfree _, state => state.context.freelist.cursor < 255

def Writes (payload : Extent) (change : AllocatorState → AllocatorState) : Prop :=
  ∃ address value, payload.Holds address ∧
    change = fun state ↦ { state with bytes := store8 state.bytes address value }

/-- The memory in use is that of the live blocks of a served heap. -/
def InUse (mapping : Mapping) (live : Set Extent) (state : AllocatorState) : Prop :=
  ∃ blocks heap, Serves mapping maximumSize ⟨state, blocks, 0⟩ heap ∧
    ∀ payload, payload ∈ live ↔ ∃ block ∈ blocks, block.payload = payload

/-- The heap and the owners of its blocks. -/
def heapProtocol (mapping : Mapping) :
    Protocol Access AllocatorState HeapCall HeapAnswer Extent where
  exec := exec
  body := heapBody mapping.hhdmOffset
  acquire := .lockAcquire
  release := .lockRelease
  held := LockHeld
  admits := Admits
  permitted := Permitted
  gives := payloadGiven
  answers := Succeeds
  touches := Writes
  spares payload operation := operation.span.Apart payload
  valid := InUse mapping

section Writes

variable {payload : Extent} {change : AllocatorState → AllocatorState} {operation : Access}
  {bytes : Memory} {address other : ℕ} {value : UInt8}

theorem store64_store8_comm {word : ℕ} (h : address < other ∨ other + 8 ≤ address) :
    store64 (store8 bytes address value) other word =
      store8 (store64 bytes other word) address value := by
  funext x
  by_cases hx : x = address
  · subst hx
    rw [store64_of_outside h]
    simp [store8]
  · rw [store8_of_ne hx]
    unfold store64 storeBytes
    rw [store8_of_ne hx]

/-- An access notices a write to a byte that it does not read or write at no point. -/
theorem Writes.unnoticed (h : Writes payload change) (hspares : operation.span.Apart payload) :
    Unnoticed exec change operation := by
  obtain ⟨address, value, hholds, rfl⟩ := h
  have hapart : ¬ operation.span.Holds address := fun hspan ↦ hspares.not_holds hspan hholds
  intro state
  cases operation with
  | load other =>
    have hother : load64 (store8 state.bytes address value) other = load64 state.bytes other :=
      load64_congr fun x hlow hhigh ↦ store8_of_ne fun heq ↦ hapart ⟨heq ▸ hlow, heq ▸ hhigh⟩
    exact congrArg (·, _) hother
  | store other word =>
    have hoff : address < other ∨ other + 8 ≤ address := by
      by_contra hin
      exact hapart ⟨by dsimp only [Access.span]; omega, by
        simp only [Access.span, Extent.stop]
        omega⟩
    simp only [exec, store64_store8_comm hoff]
  | storeByte other byte =>
    have hne : address ≠ other := by
      rintro rfl
      exact hapart ⟨le_rfl, Nat.lt_succ_self _⟩
    simp only [exec, store8, Function.update_comm hne]
  | lockAcquire =>
    simp only [exec]
    split <;> rfl
  | _ => rfl

end Writes

/-! ## The heap as a custodian -/

section Custodian

variable {mapping : Mapping} {live : Set Extent} {state after : AllocatorState} {size address : ℕ}
  {payload : Extent} {blocks : List Block} {heap : Layout} {maximum : ℕ}

/-- The payload of a live block belongs to its cell. -/
theorem Serves.clear_payload {code : Code HeapAnswer} {block : Block} {config : HeapConfig}
    (h : Serves mapping maximum config heap) (hmaximum : maximum + 4135 < 2 ^ 64)
    (hblock : block ∈ config.live) (hclear : Clear block.cell code state) :
    Clear block.payload code state := fun operation hoperation ↦
  (hclear operation hoperation).mono_right (h.payload_within hmaximum hblock)

/-- Answering is no access. -/
theorem clear_answer {α : Type} {cell : Extent} {code : Code α} {answer : α → HeapAnswer}
    (h : Clear cell code state) : Clear cell (code >>= fun value ↦ pure (answer value)) state := by
  rw [Clear, accesses_bind_pure]
  exact h

/-- A granted `kmalloc` takes new memory into use. -/
theorem InUse.kmalloc (h : InUse mapping live state) (hpos : 1 ≤ size) (hsize : size ≤ maximumSize)
    (hgranted : Granted size state) :
    ∃ pointer after, run exec (heapBody mapping.hhdmOffset (.kmalloc size)) state =
        some (.pointer pointer, after) ∧ pointer ≠ 0 ∧
      InUse mapping (live ∪ {⟨pointer, size⟩}) after ∧ (⟨pointer, size⟩ : Extent) ∉ live ∧
      ∀ payload ∈ live, Clear payload (heapBody mapping.hhdmOffset (.kmalloc size)) state := by
  obtain ⟨blocks, heap, hserves, hlive⟩ := h
  have hbound : size + 4135 < 2 ^ 64 := lt_of_le_of_lt (by omega) maximumSize_lt
  obtain ⟨pointer, after, next, hrun, hgiven⟩ := hserves.represents.kmalloc_given hserves.lock_eq
    (Or.inl hpos) (fun _ ↦ (frameCounts_bounds hbound).1) hgranted
  obtain ⟨hne, -, htracks⟩ := hserves.toTracks.give hgiven
  have hnext :
      Serves mapping maximumSize ⟨after, givenBlock size pointer after :: blocks, 0⟩ next :=
    ⟨htracks, List.forall_mem_cons.mpr ⟨⟨hpos, hsize⟩, hserves.sizes⟩⟩
  refine ⟨pointer, after, run_bind_of_eq hrun, hne, ⟨_, next, hnext, fun payload ↦ ?_⟩, ?_, ?_⟩
  · rw [Set.mem_union, hlive, Set.mem_singleton_iff]
    simp only [List.mem_cons, exists_eq_or_imp]
    rw [or_comm, eq_comm]
    rfl
  · rintro hmem
    obtain ⟨block, hblock, hpayload⟩ := (hlive _).mp hmem
    have hnew : block ≠ givenBlock size pointer after := by
      rintro rfl
      exact (List.nodup_cons.mp hnext.nodup).1 hblock
    have hapart := hnext.payloads_apart maximumSize_lt (List.mem_cons_of_mem _ hblock)
      List.mem_cons_self hnew
    rw [hpayload] at hapart
    simp only [Block.payload, givenBlock, Extent.Apart, Extent.stop] at hapart
    omega
  · intro payload hmem
    obtain ⟨block, hblock, rfl⟩ := (hlive _).mp hmem
    exact hserves.clear_payload maximumSize_lt hblock
      (clear_answer (hserves.clear_kmalloc hblock hpos hbound hgranted))

/-- `kfree` of memory in use takes it out of use. -/
theorem InUse.kfree (h : InUse mapping live state) (hpayload : payload ∈ live)
    (hcursor : state.context.freelist.cursor < 255) :
    ∃ after, run exec (heapBody mapping.hhdmOffset (.kfree payload.start)) state =
        some (.status true, after) ∧ InUse mapping (live \ {payload}) after ∧
      ∀ other ∈ live, other ≠ payload →
        Clear other (heapBody mapping.hhdmOffset (.kfree payload.start)) state := by
  obtain ⟨blocks, heap, hserves, hlive⟩ := h
  obtain ⟨block, hblock, rfl⟩ := (hlive _).mp hpayload
  have haligned := hserves.represents.pointer_not_aligned ((hserves.live_iff block).mp hblock)
    (hserves.sizes block hblock).1
  obtain ⟨after, -, hrun, -⟩ := hserves.represents.kfree_reclaimed hserves.lock_eq
    ((hserves.live_iff block).mp hblock) haligned fun _ ↦ hcursor
  obtain ⟨-, next, -, htracks⟩ := hserves.toTracks.kfree hblock haligned (fun _ ↦ hcursor) hrun
  have hdistinct {other : Block} (hother : other ∈ blocks) (hne : other ≠ block) :
      other.payload ≠ block.payload := by
    intro heq
    have hapart := hserves.payloads_apart maximumSize_lt hother hblock hne
    have hsize := (hserves.sizes block hblock).1
    rw [heq] at hapart
    simp only [Block.payload, Extent.Apart, Extent.stop] at hapart
    omega
  have hnext : Serves mapping maximumSize ⟨after, blocks.erase block, 0⟩ next :=
    ⟨htracks, fun other hother ↦ hserves.sizes other (List.mem_of_mem_erase hother)⟩
  refine ⟨after, run_bind_of_eq hrun, ⟨_, next, hnext, fun other ↦ ?_⟩, fun other hmem hne ↦ ?_⟩
  · rw [Set.mem_sdiff, hlive, Set.mem_singleton_iff]
    constructor
    · rintro ⟨⟨kept, hkept, rfl⟩, hne⟩
      have hother : kept ≠ block := fun heq ↦ hne (congrArg Block.payload heq)
      exact ⟨kept, (List.mem_erase_of_ne hother).mpr hkept, rfl⟩
    · rintro ⟨kept, hkept, rfl⟩
      obtain ⟨hother, hmem⟩ := hserves.nodup.mem_erase_iff.mp hkept
      exact ⟨⟨kept, hmem, rfl⟩, hdistinct hmem hother⟩
  · obtain ⟨kept, hkept, rfl⟩ := (hlive _).mp hmem
    have hother : block ≠ kept := fun heq ↦ hne (congrArg Block.payload heq.symm)
    exact hserves.clear_payload maximumSize_lt hkept
      (clear_answer (hserves.clear_kfree hkept hblock hother))

/-- A write of the owner keeps the memory in use. -/
theorem InUse.write {change : AllocatorState → AllocatorState} (h : InUse mapping live state)
    (hpayload : payload ∈ live) (hwrites : Writes payload change) :
    InUse mapping live (change state) := by
  obtain ⟨blocks, heap, hserves, hlive⟩ := h
  obtain ⟨block, hblock, rfl⟩ := (hlive _).mp hpayload
  obtain ⟨address, value, hholds, rfl⟩ := hwrites
  have hroom : block.room.Holds address := by
    have hword := hserves.size_le_word maximumSize_lt hblock
    exact ⟨hholds.1, hholds.2.trans_le (Nat.add_le_add_left hword _)⟩
  exact ⟨blocks, heap, ⟨hserves.toTracks.write hblock hroom, hserves.sizes⟩, hlive⟩

/-- The heap looks after its blocks. -/
theorem custodian_heapProtocol (mapping : Mapping) : Custodian (heapProtocol mapping) where
  lock := lockSemantics
  sectioned := sectioned_heapBody mapping.hhdmOffset
  serve := by
    intro live state call taken hvalid _ hadmits hpermitted htaken
    cases call with
    | kmalloc size =>
      cases taken with
      | some payload => exact hpermitted.elim
      | none =>
        obtain ⟨pointer, after, hrun, hne, hafter, hnew, hclear⟩ :=
          InUse.kmalloc hvalid hpermitted.1 hpermitted.2 hadmits
        have hgives : members (payloadGiven (.kmalloc size) (.pointer pointer)) =
            {⟨pointer, size⟩} := by
          rw [payloadGiven, if_neg hne, members_some]
        refine ⟨.pointer pointer, after, hrun, ⟨pointer, rfl, hne⟩, ?_, ?_, fun payload hmem _ ↦
          hclear payload hmem⟩
        · change InUse mapping
            (live \ members none ∪ members (payloadGiven (.kmalloc size) (.pointer pointer))) after
          rwa [members_none, Set.sdiff_empty, hgives]
        · change Disjoint (members (payloadGiven (.kmalloc size) (.pointer pointer))) live
          rwa [hgives, Set.disjoint_singleton_left]
    | kfree address =>
      cases taken with
      | none => exact hpermitted.elim
      | some payload =>
        obtain rfl : payload.start = address := hpermitted
        obtain ⟨after, hrun, hafter, hclear⟩ := InUse.kfree hvalid (htaken rfl) hadmits
        refine ⟨.status true, after, hrun, rfl, ?_, ?_, fun other hmem hne ↦ hclear other hmem ?_⟩
        · change InUse mapping (live \ members (some payload) ∪ members none) after
          rwa [members_none, Set.union_empty, members_some]
        · change Disjoint (members none) live
          rw [members_none]
          exact Set.empty_disjoint live
        · exact fun heq ↦ hne (heq ▸ rfl)
  touch := fun hvalid hpayload hwrites ↦ InUse.write hvalid hpayload hwrites
  touch_held := by
    rintro payload change ⟨address, value, -, rfl⟩ state
    exact Iff.rfl
  unnoticed := fun hwrites hspares ↦ Writes.unnoticed hwrites hspares
  spares_acquire payload := Or.inl (Nat.zero_le _)

end Custodian

/-! ## Any interleaving -/

section Interleaving

variable {Proc : Type} [DecidableEq Proc] {hhdmOffset : ℕ} {start : HeapConfig}
  {mapping : Mapping} {ledger : Ledger AllocatorState Proc HeapCall HeapAnswer Extent}
  {callers final after : Callers Access AllocatorState Proc HeapCall HeapAnswer Extent}
  {event : CallerEvent Proc HeapCall HeapAnswer Extent}
  {taken : List (Taken (Callers Access AllocatorState Proc HeapCall HeapAnswer Extent)
    (CallerEvent Proc HeapCall HeapAnswer Extent))}

/-- No memory is in use after boot. -/
theorem Booted.inUse (h : Booted hhdmOffset start) : InUse h.mapping ∅ start.state := by
  obtain ⟨state, live, owned⟩ := start
  obtain rfl : live = [] := h.live_eq
  obtain rfl : owned = 0 := h.owned_eq
  exact ⟨[], _, h.serves maximumSize, by simp⟩

/-- Every state that callers reach after boot, when the calls that get the lock are admitted, has a
true ledger. -/
theorem Booted.keeps (h : Booted hhdmOffset start)
    (hrun : Run (CallerStep (heapProtocol h.mapping)) ⟨initial start.state, ∅⟩ taken final)
    (hadmitted : ∀ t ∈ taken, Admitted (heapProtocol h.mapping) t) :
    ∃ ledger, Keeps (heapProtocol h.mapping) ledger final :=
  keeps_of_run (custodian_heapProtocol _) h.inUse (not_not.mpr h.lock_eq) hrun hadmitted

/-- A processor that calls `kmalloc` after boot and is not interrupted owns the block it is
answered. -/
theorem exists_firstOwner : ∃ (pointer : ℕ)
    (taken : List (Taken (Callers Access AllocatorState Bool HeapCall HeapAnswer Extent)
      (CallerEvent Bool HeapCall HeapAnswer Extent)))
    (config : Config Access AllocatorState Bool HeapCall HeapAnswer),
    Run (CallerStep (heapProtocol booted_bootedHeap.mapping)) ⟨initial bootedHeap.state, ∅⟩ taken
        ⟨config, {⟨pointer, 64⟩}⟩ ∧
      (∀ t ∈ taken, Admitted (heapProtocol booted_bootedHeap.mapping) t) ∧
      config.shared.memoryLock = 0 ∧ ∀ proc, config.thread proc = .idle := by
  have hsize : 1 ≤ 64 ∧ 64 ≤ maximumSize := by norm_num [maximumSize]
  obtain ⟨pointer, after, hbody, hne, hafter, -⟩ :=
    booted_bootedHeap.inUse.kmalloc hsize.1 hsize.2 granted_bootedHeap
  have hpermitted : (heapProtocol booted_bootedHeap.mapping).permitted (.kmalloc 64) none := hsize
  have hstart : Run (CallerStep (heapProtocol booted_bootedHeap.mapping))
      (⟨initial bootedHeap.state, ∅⟩ : Callers _ _ Bool _ _ _) [] _ := Run.nil
  have hidle : (initial bootedHeap.state : Config Access AllocatorState Bool HeapCall
      HeapAnswer).thread true = .idle := rfl
  have hnothing : members (none : Option Extent) ⊆ ∅ := by simp
  obtain ⟨taken, hrun, hadmitted⟩ := exists_run_alone (custodian_heapProtocol _) hstart
    (fun t ht ↦ absurd ht List.not_mem_nil) hidle hpermitted hnothing granted_bootedHeap hbody
  have hgives : members ((heapProtocol booted_bootedHeap.mapping).gives (.kmalloc 64)
      (.pointer pointer)) = {⟨pointer, 64⟩} := by
    change members (payloadGiven (.kmalloc 64) (.pointer pointer)) = _
    rw [payloadGiven, if_neg hne, members_some]
  rw [members_none, Set.sdiff_empty, Set.empty_union, hgives] at hrun
  obtain ⟨blocks, heap, hserves, -⟩ := hafter
  exact ⟨pointer, taken, _, hrun, hadmitted, hserves.lock_eq, fun _ ↦ rfl⟩

/-- What the owners of blocks and the callers of the heap can rely on. -/
structure OwnersSafe (hhdmOffset : ℕ) (usable : Multiset ℕ)
    (callers : Callers Access AllocatorState Proc HeapCall HeapAnswer Extent) : Prop where
  apart : ∀ first ∈ callers.owned, ∀ second ∈ callers.owned, first ≠ second → first.Apart second
  in_frames : ∀ payload ∈ callers.owned, ∃ frame count,
    strided 4096 frame count ≤ usable ∧ payload.Within ⟨frame + hhdmOffset, 4096 * count⟩
  exclusive : ∀ first second, InSection (callers.config.thread first) →
    InSection (callers.config.thread second) → first = second
  locked_iff : callers.config.shared.memoryLock ≠ 0 ↔
    ∃ proc, InSection (callers.config.thread proc)
  spared : ∀ proc call position operation next,
    callers.config.thread proc = .running call position (.access operation next) →
      ∀ payload ∈ callers.owned, operation.span.Apart payload
  answers : ∀ entry ∈ callers.config.returned, Succeeds entry.call entry.result

omit [DecidableEq Proc] in
theorem ownersSafe_of_keeps (h : Keeps (heapProtocol mapping) ledger callers) :
    OwnersSafe mapping.hhdmOffset mapping.frames callers := by
  obtain ⟨blocks, heap, hserves, hlive⟩ := h.valid
  have hblock {payload : Extent} (howned : payload ∈ callers.owned) :
      ∃ block ∈ blocks, block.payload = payload :=
    (hlive payload).mp (h.heldOnce.owned_subset howned)
  refine ⟨?_, ?_, h.exclusive.1, h.exclusive.2, ?_, h.returned⟩
  · intro first hfirst second hsecond hne
    obtain ⟨block, hmem, rfl⟩ := hblock hfirst
    obtain ⟨other, hother, rfl⟩ := hblock hsecond
    exact hserves.payloads_apart maximumSize_lt hmem hother fun heq ↦ hne (heq ▸ rfl)
  · intro payload howned
    obtain ⟨block, hmem, rfl⟩ := hblock howned
    obtain ⟨frame, count, husable, -, hwithin, -⟩ := hserves.in_frames hmem
    exact ⟨frame, count, husable, (hserves.payload_within maximumSize_lt hmem).trans hwithin⟩
  · intro proc call position operation next hthread payload howned
    exact h.spares_access (custodian_heapProtocol mapping) hthread howned

/-- Whatever the interleaving of calls and of writes by owners, owned blocks do not overlap, no
access inside a call meets one, the lock excludes, and every call succeeds. -/
theorem owners_safe (hboot : Booted hhdmOffset start)
    (hrun : Run (CallerStep (heapProtocol hboot.mapping)) ⟨initial start.state, ∅⟩ taken final)
    (hadmitted : ∀ t ∈ taken, Admitted (heapProtocol hboot.mapping) t) :
    OwnersSafe hhdmOffset (Frames.free start.freelist) final := by
  obtain ⟨ledger, hkeeps⟩ := hboot.keeps hrun hadmitted
  exact ownersSafe_of_keeps hkeeps

/-- After the first call to `kmalloc`, while its caller owns the block. -/
theorem owners_safe_firstOwner : ∃ (pointer : ℕ)
    (callers : Callers Access AllocatorState Bool HeapCall HeapAnswer Extent),
    callers.owned = {⟨pointer, 64⟩} ∧
      OwnersSafe 0 (Frames.free bootedHeap.freelist) callers := by
  obtain ⟨pointer, taken, config, hrun, hadmitted, -⟩ := exists_firstOwner
  exact ⟨pointer, _, rfl, owners_safe booted_bootedHeap hrun hadmitted⟩

theorem contents_congr {first second : Memory} {extent : Extent}
    (h : ∀ address, extent.Holds address → first address = second address) :
    contents first extent = contents second extent := by
  refine List.map_congr_left fun k hk ↦ h _ ⟨Nat.le_add_right _ _, ?_⟩
  exact Nat.add_lt_add_left (List.mem_range.mp hk) _

/-- An access apart from an extent leaves its contents. -/
theorem contents_exec {payload : Extent} {operation : Access} (state : AllocatorState)
    (h : operation.span.Apart payload) :
    contents (exec operation state).2.bytes payload = contents state.bytes payload := by
  refine contents_congr fun address hholds ↦ ?_
  have hout := h.symm.not_holds hholds
  cases operation with
  | store other word =>
    refine store64_of_outside ?_
    simp only [Access.span, Extent.Holds, Extent.stop] at hout
    omega
  | storeByte other byte =>
    refine store8_of_ne ?_
    rintro rfl
    exact hout ⟨le_rfl, Nat.lt_succ_self _⟩
  | lockAcquire =>
    simp only [exec]
    split <;> rfl
  | _ => rfl

/-- No step of anybody, in a call or outside, changes an owned block, except a write of its
owner. -/
theorem owned_contents_kept (hboot : Booted hhdmOffset start)
    (hrun : Run (CallerStep (heapProtocol hboot.mapping)) ⟨initial start.state, ∅⟩ taken final)
    (hadmitted : ∀ t ∈ taken, Admitted (heapProtocol hboot.mapping) t) :
    ∀ t ∈ taken, ∀ payload ∈ t.before.owned, t.label ≠ .touch payload →
      contents t.after.config.shared.bytes payload =
        contents t.before.config.shared.bytes payload := by
  intro t ht payload howned hlabel
  obtain ⟨earlier, hearlier, hstep, hsubset⟩ := hrun.of_mem ht
  obtain ⟨ledger, hkeeps⟩ := hboot.keeps hearlier fun prior hprior ↦
    hadmitted prior (hsubset prior hprior)
  obtain ⟨blocks, heap, hserves, hlive⟩ := hkeeps.valid
  refine hkeeps.view_eq (fun payload (state : AllocatorState) ↦ contents state.bytes payload)
    (custodian_heapProtocol _) (fun payload operation state hspares ↦ contents_exec state hspares)
    ?_ hstep howned hlabel
  rintro first second change state hfirst hsecond hne ⟨address, value, hholds, rfl⟩
  obtain ⟨block, hblock, rfl⟩ := (hlive first).mp hfirst
  obtain ⟨other, hother, rfl⟩ := (hlive second).mp hsecond
  have hapart := hserves.payloads_apart maximumSize_lt hblock hother fun heq ↦ hne (heq ▸ rfl)
  refine contents_congr fun inner hinner ↦ store8_of_ne ?_
  rintro rfl
  exact hapart.not_holds hinner hholds

/-- A second call to `kmalloc` starts while the first block is owned. -/
theorem owned_contents_kept_firstOwner : ∃ (pointer : ℕ)
    (before after : Callers Access AllocatorState Bool HeapCall HeapAnswer Extent),
    CallerStep (heapProtocol booted_bootedHeap.mapping) before
        (.invoke false (.kmalloc 64) none) after ∧ ⟨pointer, 64⟩ ∈ before.owned ∧
      contents after.config.shared.bytes ⟨pointer, 64⟩ =
        contents before.config.shared.bytes ⟨pointer, 64⟩ := by
  obtain ⟨pointer, taken, config, hrun, hadmitted, -, hidle⟩ := exists_firstOwner
  have hpermitted : (heapProtocol booted_bootedHeap.mapping).permitted (.kmalloc 64) none :=
    ⟨by norm_num, by norm_num [maximumSize]⟩
  have hnothing : members (none : Option Extent) ⊆ {⟨pointer, 64⟩} := by simp
  have hstep : CallerStep (heapProtocol booted_bootedHeap.mapping) ⟨config, {⟨pointer, 64⟩}⟩
      (.invoke false (.kmalloc 64) none) _ := .invoke (hidle false) hpermitted hnothing
  refine ⟨pointer, _, _, hstep, rfl, owned_contents_kept booted_bootedHeap (hrun.snoc _ hstep) ?_
    _ (List.mem_append_right _ (List.mem_singleton_self _)) _ rfl (by simp)⟩
  rw [List.forall_mem_append, List.forall_mem_singleton]
  exact ⟨hadmitted, admitted_of_order_eq rfl⟩

/-- The heap can go on: whoever is inside a call leaves it without help from the others, who stay
where they are, and then every waiting call that is admitted can be served. -/
def CanGoOn (hhdmOffset : ℕ)
    (config : Config Access AllocatorState Proc HeapCall HeapAnswer) : Prop :=
  ∃ free, Relation.ReflTransGen (Internal exec (heapBody hhdmOffset)) config free ∧
    free.shared.memoryLock = 0 ∧
    (∀ proc, ¬ InSection (config.thread proc) → free.thread proc = config.thread proc) ∧
    ∀ proc call, free.thread proc = .running call none (heapBody hhdmOffset call) →
      Admits call free.shared →
        ∃ served result position,
          Relation.ReflTransGen (Internal exec (heapBody hhdmOffset)) free served ∧
            served.thread proc = .running call position (.done result) ∧ Succeeds call result

/-- In every state of every interleaving the heap can go on. -/
theorem heap_can_go_on (hboot : Booted hhdmOffset start)
    (hrun : Run (CallerStep (heapProtocol hboot.mapping)) ⟨initial start.state, ∅⟩ taken final)
    (hadmitted : ∀ t ∈ taken, Admitted (heapProtocol hboot.mapping) t) :
    CanGoOn hhdmOffset final.config := by
  obtain ⟨ledger, hkeeps⟩ := hboot.keeps hrun hadmitted
  obtain ⟨free, hsteps, hfree, hlock, hothers⟩ := hkeeps.exists_free
  refine ⟨free, hsteps, not_not.mp hlock, hothers, fun proc call hthread hadmits ↦ ?_⟩
  exact hfree.exists_done (custodian_heapProtocol _) hlock hthread hadmits

/-- The first processor is inside `kmalloc`, and the second waits for it. -/
theorem heap_can_go_on_twoCallers :
    ∃ config : Config Access AllocatorState Bool HeapCall HeapAnswer,
      InSection (config.thread true) ∧
        config.thread false = .running (.kmalloc 5000) none (heapBody 0 (.kmalloc 5000)) ∧
        CanGoOn 0 config := by
  have hsmall : (heapProtocol booted_bootedHeap.mapping).permitted (.kmalloc 64) none :=
    ⟨by norm_num, by norm_num [maximumSize]⟩
  have hlarge : (heapProtocol booted_bootedHeap.mapping).permitted (.kmalloc 5000) none :=
    ⟨by norm_num, by norm_num [maximumSize]⟩
  have hnothing : members (none : Option Extent) ⊆ ∅ := by simp
  have hstart : Run (CallerStep (heapProtocol booted_bootedHeap.mapping))
      (⟨initial bootedHeap.state, ∅⟩ : Callers _ _ Bool _ _ _) [] _ := .nil
  have hcalled := hstart.snoc (.invoke true (.kmalloc 64) none) (.invoke rfl hsmall hnothing)
  have hboth := hcalled.snoc (.invoke false (.kmalloc 5000) none)
    (.invoke rfl hlarge (by simp))
  have hinside := hboth.snoc .inside (.inside (internal_of_step
    (.pass _ true (.kmalloc 64) none .lockAcquire _ rfl (by decide)) rfl rfl))
  refine ⟨_, ⟨.kmalloc 64, _, _, rfl, ?_⟩, rfl, heap_can_go_on booted_bootedHeap hinside ?_⟩
  · intro _ h
    cases h
  · simp only [List.forall_mem_append, List.forall_mem_singleton]
    refine ⟨⟨⟨by simp, admitted_of_order_eq rfl⟩, admitted_of_order_eq rfl⟩,
      fun proc call horder ↦ ?_⟩
    cases horder
    exact granted_bootedHeap

/-- The processor has given up the block and waits to free it, or was answered the block and has not
taken it yet. -/
def Carries (hhdmOffset : ℕ) (thread : Thread Access HeapCall HeapAnswer) (block : Block) : Prop :=
  thread = .running (.kfree block.pointer) none (heapBody hhdmOffset (.kfree block.pointer)) ∨
    ∃ position, thread = .running (.kmalloc block.size) position (.done (.pointer block.pointer))

omit [DecidableEq Proc] in
theorem Carries.of_resting {pending : Pending HeapCall HeapAnswer Extent}
    {thread : Thread Access HeapCall HeapAnswer} {block : Block}
    (h : Resting (heapProtocol mapping) pending thread)
    (hcarries : block.payload ∈ pending.carries (heapProtocol mapping)) :
    Carries mapping.hhdmOffset thread block := by
  cases h with
  | idle => cases hcarries
  | @waiting call taken hpermitted =>
    obtain rfl : taken = some block.payload := hcarries
    cases call with
    | kmalloc size => exact hpermitted.elim
    | kfree address =>
      obtain rfl : block.payload.start = address := hpermitted
      exact Or.inl rfl
  | @ended call result position hanswers =>
    cases call with
    | kmalloc size =>
      obtain ⟨address, rfl, hne⟩ := hanswers
      have hgiven : (if address = 0 then none else some (⟨address, size⟩ : Extent)) =
          some block.payload := hcarries
      rw [if_neg hne] at hgiven
      obtain ⟨rfl, rfl⟩ := Extent.mk.inj (Option.some.inj hgiven)
      exact Or.inr ⟨position, rfl⟩
    | kfree address => cases hcarries

/-- Payloads in use that start at the same address are the same. -/
theorem Serves.payload_unique {config : HeapConfig} {heap : Layout} {block other : Block}
    (h : Serves mapping maximumSize config heap) (hblock : block ∈ config.live)
    (hother : other ∈ config.live) (hpointer : other.pointer = block.pointer) :
    other.payload = block.payload := by
  by_contra hne
  have hapart := h.payloads_apart maximumSize_lt hother hblock fun heq ↦ hne (heq ▸ rfl)
  have hpos := (h.sizes block hblock).1
  have hposOther := (h.sizes other hother).1
  simp only [Block.payload, Extent.Apart, Extent.stop] at hapart
  omega

omit [DecidableEq Proc] in
theorem Carries.pending {pending : Pending HeapCall HeapAnswer Extent}
    {thread : Thread Access HeapCall HeapAnswer} {block : Block}
    (h : Resting (heapProtocol mapping) pending thread)
    (hcarries : Carries mapping.hhdmOffset thread block) (hpointer : block.pointer ≠ 0)
    (hunique : ∀ payload ∈ pending.carries (heapProtocol mapping),
      payload.start = block.pointer → payload = block.payload) :
    block.payload ∈ pending.carries (heapProtocol mapping) := by
  rcases hcarries with rfl | ⟨position, rfl⟩
  · rcases h.running with ⟨taken, rfl, hpermitted, -, -⟩ | ⟨answer, -, hdone, -⟩
    · cases taken with
      | none => exact hpermitted.elim
      | some payload =>
        have hpayload := hunique payload rfl hpermitted
        exact congrArg some hpayload
    · cases hdone
  · rcases h.running with ⟨taken, -, -, -, hbody⟩ | ⟨answer, rfl, hdone, -⟩
    · cases hbody
    · cases hdone
      change (if block.pointer = 0 then none else some (⟨block.pointer, block.size⟩ : Extent)) = _
      rw [if_neg hpointer]
      rfl

/-- Every live block of the heap in memory is owned, or on its way to or from exactly one
processor, and everything owned is live. -/
def NoneLost (mapping : Mapping)
    (callers : Callers Access AllocatorState Proc HeapCall HeapAnswer Extent) : Prop :=
  ∃ heap, Represents mapping callers.config.shared heap ∧
    (∀ payload ∈ callers.owned, ∃ block, heap.Live block ∧ block.payload = payload) ∧
    ∀ block, heap.Live block →
      (block.payload ∈ callers.owned ∧
        ∀ proc, ¬ Carries mapping.hhdmOffset (callers.config.thread proc) block) ∨
      (block.payload ∉ callers.owned ∧
        ∃! proc, Carries mapping.hhdmOffset (callers.config.thread proc) block)

/-- Whenever the lock is free, the heap in memory consists of the blocks of its callers, each with
one holder. -/
theorem no_block_lost (hboot : Booted hhdmOffset start)
    (hrun : Run (CallerStep (heapProtocol hboot.mapping)) ⟨initial start.state, ∅⟩ taken final)
    (hadmitted : ∀ t ∈ taken, Admitted (heapProtocol hboot.mapping) t)
    (hfree : final.config.shared.memoryLock = 0) : NoneLost hboot.mapping final := by
  obtain ⟨ledger, hkeeps⟩ := hboot.keeps hrun hadmitted
  obtain ⟨blocks, heap, hserves, hlive⟩ := hkeeps.valid
  rcases hkeeps.lock with ⟨-, hshared, hresting⟩ | ⟨hheld, -⟩
  swap
  · exact absurd hfree hheld
  refine ⟨heap, hshared ▸ hserves.represents, fun payload howned ↦ ?_, fun block hblock ↦ ?_⟩
  · obtain ⟨block, hblock, hpayload⟩ := (hlive payload).mp (hkeeps.heldOnce.owned_subset howned)
    exact ⟨block, (hserves.live_iff block).mp hblock, hpayload⟩
  · have hmem := (hserves.live_iff block).mpr hblock
    have hcarried (proc : Proc)
        (hcarries : Carries hboot.mapping.hhdmOffset (final.config.thread proc) block) :
        block.payload ∈ (ledger.pending proc).carries (heapProtocol hboot.mapping) := by
      refine hcarries.pending (hresting proc) ?_ fun payload hpayload hstart ↦ ?_
      · have hpointer := hserves.pointer_ge hmem
        omega
      · obtain ⟨other, hother, rfl⟩ := (hlive _).mp (hkeeps.heldOnce.carried_mem proc hpayload)
        exact hserves.payload_unique hmem hother hstart
    rcases (hkeeps.heldOnce.mem_iff _).mp ((hlive _).mpr ⟨block, hmem, rfl⟩) with
      howned | ⟨proc, hcarries⟩
    · exact Or.inl ⟨howned, fun proc hcarries ↦
        hkeeps.heldOnce.not_owned proc _ (hcarried proc hcarries) howned⟩
    · refine Or.inr ⟨hkeeps.heldOnce.not_owned proc _ hcarries, proc,
        .of_resting (hresting proc) hcarries, fun other hother ↦ ?_⟩
      exact hkeeps.heldOnce.unique other proc _ (hcarried other hother) hcarries

/-- The heap after the first call to `kmalloc` consists of the block of its caller. -/
theorem no_block_lost_firstOwner : ∃ (pointer : ℕ)
    (callers : Callers Access AllocatorState Bool HeapCall HeapAnswer Extent),
    callers.owned = {⟨pointer, 64⟩} ∧ NoneLost booted_bootedHeap.mapping callers := by
  obtain ⟨pointer, taken, config, hrun, hadmitted, hfree, -⟩ := exists_firstOwner
  exact ⟨pointer, _, rfl, no_block_lost booted_bootedHeap hrun hadmitted hfree⟩

end Interleaving

end SideHOS.Heap
