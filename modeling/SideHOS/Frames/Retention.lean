import SideHOS.Frames.Partition

/-!
# Freed frames and the allocation loops

The free routines read the cursor as a byte and accept up to 255 entries; the allocation loops
read the same byte as signed and scan nothing once it reaches 128.  A free loses frames exactly
when it leaves the cursor there, or when it stores past a full table.
-/

namespace SideHOS.Frames

open Kernel Machine Machine.Word64 Machine.ByteMemory Sharing Sharing.Program Transition

def FrameEvent.freed : FrameEvent → Bool
  | .allocateFrame _ => false
  | .allocateFrames _ _ => false
  | .freeFrame _ ok => ok
  | .freeFrames _ _ ok => ok

/-- After a successful free the allocation loops scan the frames they scanned before and exactly
the freed ones. -/
def Retained (t : Taken FrameConfig FrameEvent) : Prop :=
  t.label.freed = true → ∀ frame, frame ∈ scanned t.after.freelist ↔
    frame ∈ scanned t.before.freelist ∨ frame ∈ t.label.released

/-- The state before a call has a scanned entry for what the call frees: an entry below 127 is
unused, or the frame extends one of 127 entries.  With 255 entries and none adjacent,
`memory_free_frame` fails as it should.  Freeing no frames at all is harmless unless it hides the
entries of a table of 127 or uncovers the first entry of a full table. -/
def HasScannedSlot (t : Taken FrameConfig FrameEvent) : Prop :=
  match t.label with
  | .allocateFrame _ => True
  | .allocateFrames _ _ => True
  | .freeFrame physical _ =>
      t.before.freelist.cursor ≤ 126 ∨
        (t.before.freelist.cursor = 127 ∧ freeSlot t.before.freelist physical ≠ none) ∨
        (t.before.freelist.cursor = 255 ∧ freeSlot t.before.freelist physical = none)
  | .freeFrames _ count _ =>
      t.before.freelist.cursor ≤ 126 ∨
        (count = 0 ∧ (t.before.freelist.cursor = 127 → scanned t.before.freelist = 0) ∧
          (t.before.freelist.cursor = 255 → (t.before.freelist.segments 0).length = 0))

theorem scanned_of_le {freelist : FreeList} (h : freelist.cursor ≤ 127) :
    scanned freelist = free freelist := by
  unfold scanned free
  rw [scanLimit_of_lt (by omega)]

theorem scanned_of_ge {freelist : FreeList} (h : 128 ≤ freelist.cursor)
    (hbyte : freelist.cursor ≤ 255) : scanned freelist = 0 := by
  unfold scanned
  rw [scanLimit_of_ge h (by omega)]
  exact Finset.sum_range_zero _

theorem sound_truncated {freelist : FreeList} (hsound : Sound freelist) {cursor : ℕ}
    (hcursor : cursor ≤ freelist.cursor) : Sound { freelist with cursor := cursor } where
  cursor_le := hcursor.trans hsound.cursor_le
  aligned index hindex := hsound.aligned index (lt_of_lt_of_le hindex hcursor)
  base_lt index hindex := hsound.base_lt index (lt_of_lt_of_le hindex hcursor)
  end_le index hindex := hsound.end_le index (lt_of_lt_of_le hindex hcursor)
  disjoint first hfirst second hsecond := hsound.disjoint first (lt_of_lt_of_le hfirst hcursor)
    second (lt_of_lt_of_le hsecond hcursor)
  zero_not_mem hmem := hsound.zero_not_mem (Multiset.mem_of_le (frames_mono hcursor) hmem)

section Step

variable {hhdmOffset physical count : ℕ} {before after : FrameConfig} {event : FrameEvent}
  {state : AllocatorState} {freed : Multiset ℕ}

/-- A free that leaves the cursor below 128 keeps every frame within reach. -/
theorem Freed.scanned_eq (hfreed : Freed before.state freed state)
    (hbefore : before.freelist.cursor ≤ 127) (hafter : state.context.freelist.cursor ≤ 127) :
    scanned state.context.freelist = scanned before.freelist + freed := by
  rw [scanned_of_le hafter, scanned_of_le hbefore]
  exact hfreed.free_eq

theorem retained_freeFrame_iff (hconsistent : Consistent before) (howned : physical ∈ before.owned)
    {ok : Bool} (hrun : run exec (memoryFreeFrame physical) before.state = some (ok, state))
    {owned : Multiset ℕ} :
    HasScannedSlot ⟨before, .freeFrame physical ok, ⟨state, owned⟩⟩ ↔
      Retained ⟨before, .freeFrame physical ok, ⟨state, owned⟩⟩ := by
  have hle := hconsistent.sound.cursor_le
  obtain ⟨ok', state', hspec, hfails, -, hfreed⟩ :=
    memoryFreeFrame_spec hconsistent.sound (hconsistent.releasable_one howned)
  obtain ⟨rfl, rfl⟩ := Prod.mk.inj (Option.some.inj (hspec.symm.trans hrun))
  cases ok' with
  | false => exact ⟨fun _ hfalse ↦ absurd hfalse (by simp [FrameEvent.freed]),
      fun _ ↦ Or.inr (Or.inr (hfails.mp rfl))⟩
  | true =>
    obtain ⟨hfreed, hcursor⟩ := hfreed rfl
    have hnotfull : ¬ (before.freelist.cursor = 255 ∧
        freeSlot before.freelist physical = none) := fun h ↦ absurd (hfails.mpr h) (by simp)
    have hiff : HasScannedSlot ⟨before, .freeFrame physical true, ⟨state', owned⟩⟩ ↔
        state'.context.freelist.cursor ≤ 127 := by
      dsimp only [HasScannedSlot, FrameConfig.freelist] at hle hnotfull ⊢
      by_cases hslot : freeSlot before.state.context.freelist physical = none
      · simp only [hslot, ne_eq, not_true, and_false, false_or, and_true] at hnotfull ⊢
        rw [if_pos hslot] at hcursor
        omega
      · simp only [hslot, ne_eq, not_false_eq_true, and_true, and_false, or_false]
        rw [if_neg hslot] at hcursor
        omega
    rw [hiff]
    constructor
    · intro hlow _ frame
      have hbefore : before.freelist.cursor ≤ 127 := le_trans (Nat.le_add_right _ _)
        (hcursor.symm.trans_le hlow)
      rw [show (FrameConfig.mk state' owned).freelist = state'.context.freelist from rfl,
        hfreed.scanned_eq hbefore hlow, Multiset.mem_add]
      rfl
    · intro hretained
      by_contra hhigh
      have hmem := (hretained rfl physical).mpr (Or.inr (Multiset.mem_singleton_self _))
      have hzero : scanned state'.context.freelist = 0 :=
        scanned_of_ge (by omega) hfreed.sound.cursor_le
      rw [show (FrameConfig.mk state' owned).freelist = state'.context.freelist from rfl,
        hzero] at hmem
      exact Multiset.notMem_zero _ hmem

/-- Past a full table the cursor restarts at 1, so only the first entry is scanned. -/
theorem retained_freeFrames_full (hconsistent : Consistent before)
    (hfull : before.freelist.cursor = 255)
    (hreleasable : Releasable before.freelist physical count) :
    (∀ frame, frame ∈ scanned { before.freelist with cursor := 1 } ↔
        frame ∈ scanned before.freelist ∨ frame ∈ strided 4096 physical count) ↔
      count = 0 ∧ (before.freelist.segments 0).length = 0 := by
  have hbefore : scanned before.freelist = 0 :=
    scanned_of_ge (by omega) hconsistent.sound.cursor_le
  have hafter : scanned { before.freelist with cursor := 1 } =
      segmentFrames (before.freelist.segments 0) := by
    rw [scanned_of_le (by norm_num), free, frames, Finset.sum_range_one]
  have hdisjoint : Disjoint (segmentFrames (before.freelist.segments 0))
      (strided 4096 physical count) :=
    hreleasable.not_free.mono_left (segmentFrames_le_free (by omega))
  simp only [hbefore, hafter, Multiset.notMem_zero, false_or]
  constructor
  · intro hframes
    have hcount : count = 0 := by
      by_contra hne
      have hmem : physical ∈ strided 4096 physical count :=
        mem_strided.mpr ⟨0, by omega, by omega⟩
      exact Multiset.disjoint_left.mp hdisjoint ((hframes physical).mpr hmem) hmem
    refine ⟨hcount, segmentFrames_eq_zero_iff.mp (Multiset.eq_zero_of_forall_notMem ?_)⟩
    intro frame hframe
    have hfreed := (hframes frame).mp hframe
    rw [hcount] at hfreed
    exact Multiset.notMem_zero _ hfreed
  · rintro ⟨rfl, hlength⟩ frame
    rw [segmentFrames_eq_zero_iff.mpr hlength, strided_zero]

/-- While the table has room, freed frames are lost exactly when the cursor reaches 128. -/
theorem retained_freeFrames_room (hfreed : Freed before.state (strided 4096 physical count) state)
    (hcursor : state.context.freelist.cursor = before.freelist.cursor + 1)
    (hroom : before.freelist.cursor < 255) :
    (∀ frame, frame ∈ scanned state.context.freelist ↔
        frame ∈ scanned before.freelist ∨ frame ∈ strided 4096 physical count) ↔
      before.freelist.cursor ≤ 126 ∨
        (count = 0 ∧ (before.freelist.cursor = 127 → scanned before.freelist = 0)) := by
  by_cases hlow : before.freelist.cursor ≤ 126
  · rw [hfreed.scanned_eq (by omega) (by omega)]
    simp [hlow]
  · have hafter : scanned state.context.freelist = 0 :=
      scanned_of_ge (by omega) hfreed.sound.cursor_le
    simp only [hafter, hlow, Multiset.notMem_zero, false_iff, false_or, not_or]
    constructor
    · intro hframes
      refine ⟨?_, fun _ ↦ Multiset.eq_zero_of_forall_notMem fun frame ↦ (hframes frame).1⟩
      by_contra hne
      exact (hframes physical).2 (mem_strided.mpr ⟨0, by omega, by omega⟩)
    · rintro ⟨rfl, hscanned⟩ frame
      refine ⟨?_, Multiset.notMem_zero frame⟩
      by_cases heq : before.freelist.cursor = 127
      · rw [hscanned heq]
        exact Multiset.notMem_zero frame
      · rw [scanned_of_ge (by omega) (by omega)]
        exact Multiset.notMem_zero frame

theorem retained_freeFrames_iff (hconsistent : Consistent before) (haligned : physical % 4096 = 0)
    (hword : physical < 2 ^ 64) (howned : strided 4096 physical count ≤ before.owned) {ok : Bool}
    (hrun : run exec (memoryFreeFrames physical count) before.state = some (ok, state))
    {owned : Multiset ℕ} :
    HasScannedSlot ⟨before, .freeFrames physical count ok, ⟨state, owned⟩⟩ ↔
      Retained ⟨before, .freeFrames physical count ok, ⟨state, owned⟩⟩ := by
  have hle := hconsistent.sound.cursor_le
  have hreleasable := hconsistent.releasable haligned hword howned
  by_cases hfull : before.freelist.cursor = 255
  · rw [run_memoryFreeFrames_full hfull haligned] at hrun
    obtain ⟨rfl, rfl⟩ := Prod.mk.inj (Option.some.inj hrun)
    have hiff := retained_freeFrames_full hconsistent hfull hreleasable
    simp only [HasScannedSlot, Retained, FrameEvent.freed, FrameEvent.released, if_true,
      forall_true_left]
    refine Iff.trans ?_ hiff.symm
    simp [hfull]
  · have hroom : before.freelist.cursor < 255 := by omega
    obtain ⟨state', hspec, hfreed, hcursor⟩ :=
      memoryFreeFrames_spec hconsistent.sound hroom hreleasable
    obtain ⟨rfl, rfl⟩ := Prod.mk.inj (Option.some.inj (hspec.symm.trans hrun))
    have hiff := retained_freeFrames_room hfreed hcursor hroom
    simp only [HasScannedSlot, Retained, FrameEvent.freed, FrameEvent.released, if_true,
      forall_true_left]
    refine Iff.trans ?_ hiff.symm
    simp [hfull]

/-- One call keeps the freed frames within reach exactly when the state before has a scanned entry
for them. -/
theorem FrameStep.retained_iff (hconsistent : Consistent before)
    (hstep : FrameStep hhdmOffset before event after) :
    HasScannedSlot ⟨before, event, after⟩ ↔ Retained ⟨before, event, after⟩ := by
  cases hstep with
  | allocateFrame hrun => simp [HasScannedSlot, Retained, FrameEvent.freed]
  | allocateFrames hcount hrun => simp [HasScannedSlot, Retained, FrameEvent.freed]
  | freeFrame howned hrun => exact retained_freeFrame_iff hconsistent howned hrun
  | freeFrames haligned hword howned hrun =>
    exact retained_freeFrames_iff hconsistent haligned hword howned hrun

/-- Every call keeps the invariant and adds no frame; one that stores past a full table loses
frames. -/
theorem FrameStep.shrinks (hconsistent : Consistent before)
    (hstep : FrameStep hhdmOffset before event after) :
    Consistent after ∧ after.total ≤ before.total := by
  by_cases hroom : before.freelist.cursor = 255 →
      ∀ physical count ok, event ≠ .freeFrames physical count ok
  · obtain ⟨hafter, htotal⟩ := hstep.conserves hconsistent hroom
    exact ⟨hafter, htotal.le⟩
  · push Not at hroom
    obtain ⟨hfull, physical, count, ok, rfl⟩ := hroom
    cases hstep with
    | freeFrames haligned hword howned hrun =>
      rw [run_memoryFreeFrames_full hfull haligned] at hrun
      obtain ⟨rfl, rfl⟩ := Prod.mk.inj (Option.some.inj hrun)
      have hone : 1 ≤ before.freelist.cursor := by omega
      have htotal : frames before.freelist 1 + (before.owned -
          (FrameEvent.freeFrames physical count true).released) ≤ before.total :=
        add_le_add (frames_mono hone) (Multiset.sub_le_self _ _)
      refine ⟨hconsistent.of_total (sound_truncated hconsistent.sound hone) htotal ?_, htotal⟩
      exact fun x hx ↦ hconsistent.real x (Multiset.mem_of_le (Multiset.sub_le_self _ _) hx)

end Step

section Runs

variable {hhdmOffset : ℕ} {start final : FrameConfig} {taken : List (Taken FrameConfig FrameEvent)}

/-- Over a whole run: no freed frame is lost if and only if every free found a scanned entry. -/
theorem freed_frames_retained_iff (hsound : Sound start.freelist) (howned : start.owned = 0)
    (hrun : Run (FrameStep hhdmOffset) start taken final) :
    (∀ t ∈ taken, Retained t) ↔ ∀ t ∈ taken, HasScannedSlot t :=
  (Run.forall_iff (consistent_start hsound howned)
    (fun _ _ _ hconsistent hstep _ ↦ (hstep.shrinks hconsistent).1)
    (fun _ _ _ hconsistent hstep ↦ hstep.retained_iff hconsistent) hrun).symm

/-- Frames are allocated from a table that has them, and freed again. -/
theorem exists_returned {count : ℕ} (hsound : Sound start.freelist) (howned : start.owned = 0)
    (hcount : 1 ≤ count) (haffords : Affords start.freelist count)
    (hcursor : start.freelist.cursor < 255) :
    ∃ frame middle after, Consistent middle ∧
      middle.freelist.cursor = start.freelist.cursor ∧
      FrameStep hhdmOffset start (.allocateFrames count frame) middle ∧
      FrameStep hhdmOffset middle (.freeFrames frame count true) after := by
  obtain ⟨frame, state, hrun, hallocated⟩ := memoryAllocateFrames_spec hhdmOffset hsound hcount
  have hframe : frame ≠ 0 := hallocated.ne_zero_iff.mpr haffords
  have hentries : state.context.freelist.cursor = start.freelist.cursor := hallocated.cursor_eq
  have hfirst : FrameStep hhdmOffset start (.allocateFrames count frame)
      ⟨state, start.owned + if frame = 0 then 0 else strided 4096 frame count⟩ :=
    FrameStep.allocateFrames hcount hrun
  rw [if_neg hframe, howned, zero_add] at hfirst
  obtain ⟨hmiddle, -⟩ := hfirst.conserves (consistent_start hsound howned) (by simp)
  have hreal := hmiddle.real frame (mem_strided.mpr ⟨0, by omega, by norm_num⟩)
  have hreleasable : Releasable state.context.freelist frame count :=
    hmiddle.releasable hreal.1 (by omega) le_rfl
  obtain ⟨after, hfree, -, -⟩ :=
    memoryFreeFrames_spec hmiddle.sound (hentries.trans_lt hcursor) hreleasable
  exact ⟨frame, _, _, hmiddle, hentries, hfirst,
    FrameStep.freeFrames hreal.1 (by omega) le_rfl hfree⟩

/-- Both of two frames are allocated and freed. -/
theorem freed_frames_retained_twoFrames : ∃ frame taken final,
    taken.map Taken.label = [.allocateFrames 2 frame, .freeFrames frame 2 true] ∧
      Run (FrameStep 0) twoFrames taken final ∧ ∀ t ∈ taken, Retained t := by
  obtain ⟨frame, middle, final, -, hcursor, hfirst, hsecond⟩ :=
    @exists_returned 0 twoFrames 2 sound_twoFrames rfl one_le_two ⟨0, by decide, by decide⟩
      (by decide)
  have hrun := (Run.nil.snoc _ hfirst).snoc _ hsecond
  have hone : middle.freelist.cursor = 1 := hcursor
  refine ⟨frame, _, final, rfl, hrun,
    (freed_frames_retained_iff sound_twoFrames rfl hrun).mpr ?_⟩
  simp only [List.forall_mem_append, List.forall_mem_singleton, List.not_mem_nil, false_imp_iff,
    implies_true, true_and]
  exact ⟨trivial, Or.inl (hone.trans_le (by norm_num))⟩

/-- A table of 127 separate segments of two frames. -/
def separateSegments : FrameConfig where
  state :=
    { bytes := fun _ ↦ 0
      context :=
        { freelist := { segments := fun index ↦ ⟨4096 * (4 * index + 1), 2⟩, cursor := 127 }
          heapPages := 0 }
      memoryLock := 0 }
  owned := 0

theorem sound_separateSegments : Sound separateSegments.freelist where
  cursor_le := by norm_num [FrameConfig.freelist, separateSegments]
  aligned _ _ _ := Nat.mul_mod_right _ _
  base_lt index hindex := by
    have hindex' : index < 127 := hindex
    change 4096 * (4 * index + 1) < 2 ^ 64
    omega
  end_le index hindex := by
    have hindex' : index < 127 := hindex
    change 4096 * (4 * index + 1) + 4096 * 2 ≤ 2 ^ 64
    omega
  disjoint first _ second _ hne := by
    rw [Multiset.disjoint_left]
    rintro frame hfirst hsecond
    obtain ⟨j, hj, hframe⟩ : ∃ j < 2, 4096 * (4 * first + 1) + 4096 * j = frame :=
      mem_segmentFrames.mp hfirst
    obtain ⟨k, hk, hframe'⟩ : ∃ k < 2, 4096 * (4 * second + 1) + 4096 * k = frame :=
      mem_segmentFrames.mp hsecond
    omega
  zero_not_mem := by
    rw [free, mem_frames]
    rintro ⟨index, -, hindex⟩
    obtain ⟨k, -, hframe⟩ := mem_segmentFrames.mp hindex
    simp only [FrameConfig.freelist, separateSegments] at hframe
    omega

/-- Allocating two frames from 127 segments and freeing them again hides all memory. -/
theorem freed_frames_lost : ∃ taken final,
    Run (FrameStep 0) separateSegments taken final ∧ ¬ ∀ t ∈ taken, Retained t := by
  have hlimit : scanLimit separateSegments.freelist = 127 := scanLimit_of_lt (by decide)
  obtain ⟨frame, middle, final, hmiddle, hcursor, hfirst, hsecond⟩ :=
    exists_returned sound_separateSegments rfl one_le_two ⟨0, by omega, le_rfl⟩ (by decide)
  refine ⟨_, _, (Run.nil.snoc _ hfirst).snoc _ hsecond, fun hretained ↦ ?_⟩
  have hslot := (hsecond.retained_iff hmiddle).mpr (hretained _ (by simp))
  have hfull : middle.freelist.cursor = 127 := hcursor
  simp [HasScannedSlot, hfull] at hslot

end Runs

end SideHOS.Frames
