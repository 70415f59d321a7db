import SideHOS.Frames.Spec
import SideHOS.Transition.Run

/-!
# The frame allocator partitions memory

A caller's view of the frame allocator: the state, and the frames that callers own because an
allocation answered them and no free gave them back.  The free frames and the owned frames
together are always the frames that were free at the start, each once.
-/

namespace SideHOS.Frames

open Kernel Machine Machine.Word64 Machine.ByteMemory Sharing Sharing.Program Transition

/-- The allocator and the frames its callers own. -/
structure FrameConfig where
  state : AllocatorState
  owned : Multiset ℕ

namespace FrameConfig

abbrev freelist (config : FrameConfig) : FreeList := config.state.context.freelist

/-- All frames, free or owned. -/
def total (config : FrameConfig) : Multiset ℕ := free config.freelist + config.owned

end FrameConfig

inductive FrameEvent where
  | allocateFrame (frame : ℕ)
  | allocateFrames (count frame : ℕ)
  | freeFrame (physical : ℕ) (ok : Bool)
  | freeFrames (physical count : ℕ) (ok : Bool)

def FrameEvent.obtained : FrameEvent → Multiset ℕ
  | .allocateFrame frame => if frame = 0 then 0 else {frame}
  | .allocateFrames count frame => if frame = 0 then 0 else strided 4096 frame count
  | .freeFrame _ _ => 0
  | .freeFrames _ _ _ => 0

def FrameEvent.released : FrameEvent → Multiset ℕ
  | .allocateFrame _ => 0
  | .allocateFrames _ _ => 0
  | .freeFrame physical ok => if ok then {physical} else 0
  | .freeFrames physical count ok => if ok then strided 4096 physical count else 0

/-- One call by a caller that asks for at least one frame and frees only frames it owns. -/
inductive FrameStep (hhdmOffset : ℕ) : FrameConfig → FrameEvent → FrameConfig → Prop
  | allocateFrame {config : FrameConfig} {frame : ℕ} {after : AllocatorState}
      (hrun : run exec (memoryAllocateFrame hhdmOffset) config.state = some (frame, after)) :
      FrameStep hhdmOffset config (.allocateFrame frame)
        ⟨after, config.owned + (FrameEvent.allocateFrame frame).obtained⟩
  | allocateFrames {config : FrameConfig} {count frame : ℕ} {after : AllocatorState}
      (hcount : 1 ≤ count)
      (hrun : run exec (memoryAllocateFrames hhdmOffset count) config.state =
        some (frame, after)) :
      FrameStep hhdmOffset config (.allocateFrames count frame)
        ⟨after, config.owned + (FrameEvent.allocateFrames count frame).obtained⟩
  | freeFrame {config : FrameConfig} {physical : ℕ} {ok : Bool} {after : AllocatorState}
      (howned : physical ∈ config.owned)
      (hrun : run exec (memoryFreeFrame physical) config.state = some (ok, after)) :
      FrameStep hhdmOffset config (.freeFrame physical ok)
        ⟨after, config.owned - (FrameEvent.freeFrame physical ok).released⟩
  | freeFrames {config : FrameConfig} {physical count : ℕ} {ok : Bool} {after : AllocatorState}
      (haligned : physical % 4096 = 0) (hword : physical < 2 ^ 64)
      (howned : strided 4096 physical count ≤ config.owned)
      (hrun : run exec (memoryFreeFrames physical count) config.state = some (ok, after)) :
      FrameStep hhdmOffset config (.freeFrames physical count ok)
        ⟨after, config.owned - (FrameEvent.freeFrames physical count ok).released⟩

/-- The invariant of the callers' view: the table is sound, no frame is free and owned or owned
twice, and every owned frame is a real one. -/
structure Consistent (config : FrameConfig) : Prop where
  sound : Sound config.freelist
  nodup : config.total.Nodup
  real : ∀ frame ∈ config.owned, frame % 4096 = 0 ∧ frame ≠ 0 ∧ frame + 4096 ≤ 2 ^ 64

section Step

variable {hhdmOffset : ℕ} {before after : FrameConfig} {event : FrameEvent}

theorem Consistent.disjoint {config : FrameConfig} (h : Consistent config) :
    Disjoint (free config.freelist) config.owned := (Multiset.nodup_add.mp h.nodup).2.2

/-- Owned frames can be freed. -/
theorem Consistent.releasable {config : FrameConfig} {physical count : ℕ}
    (h : Consistent config) (haligned : physical % 4096 = 0) (hword : physical < 2 ^ 64)
    (howned : strided 4096 physical count ≤ config.owned) :
    Releasable config.freelist physical count where
  aligned := haligned
  base_lt := hword
  end_le := by
    rcases Nat.eq_zero_or_pos count with rfl | hcount
    · omega
    · have hlast : physical + 4096 * (count - 1) ∈ strided 4096 physical count :=
        mem_strided.mpr ⟨count - 1, by omega, rfl⟩
      have hend := (h.real _ (Multiset.mem_of_le howned hlast)).2.2
      omega
  zero_not_mem hmem := (h.real 0 (Multiset.mem_of_le howned hmem)).2.1 rfl
  not_free := h.disjoint.mono_right howned

theorem Consistent.releasable_one {config : FrameConfig} {physical : ℕ} (h : Consistent config)
    (howned : physical ∈ config.owned) : Releasable config.freelist physical 1 := by
  have hreal := h.real physical howned
  exact h.releasable hreal.1 (by omega) (by rwa [strided_one, Multiset.singleton_le])

/-- A successful free moves its frames from the owned to the free ones. -/
theorem Freed.total_eq {freed : Multiset ℕ} {state : AllocatorState}
    (hfreed : Freed before.state freed state) (howned : freed ≤ before.owned) :
    (FrameConfig.mk state (before.owned - freed)).total = before.total := by
  calc free state.context.freelist + (before.owned - freed)
      = free before.freelist + freed + (before.owned - freed) := by rw [hfreed.free_eq]
    _ = free before.freelist + (freed + (before.owned - freed)) := add_assoc _ _ _
    _ = free before.freelist + before.owned := by rw [add_tsub_cancel_of_le howned]

/-- An allocation moves its frames from the free to the owned ones. -/
theorem Allocated.total_eq {count frame : ℕ} {state : AllocatorState}
    (hallocated : Allocated before.state count frame state) :
    (FrameConfig.mk state
      (before.owned + if frame = 0 then 0 else strided 4096 frame count)).total =
        before.total := by
  by_cases hframe : frame = 0
  case pos =>
    rw [if_pos hframe, hallocated.unchanged hframe, add_zero]
  case neg =>
    rw [if_neg hframe]
    calc free state.context.freelist + (before.owned + strided 4096 frame count)
        = free state.context.freelist + strided 4096 frame count + before.owned := by
          rw [add_comm before.owned, add_assoc]
      _ = free before.freelist + before.owned := by rw [hallocated.free_eq hframe]

theorem Allocated.real {count frame : ℕ} {state : AllocatorState}
    (hsound : Sound before.freelist) (hallocated : Allocated before.state count frame state)
    (hframe : frame ≠ 0) :
    ∀ x ∈ strided 4096 frame count, x % 4096 = 0 ∧ x ≠ 0 ∧ x + 4096 ≤ 2 ^ 64 := by
  intro x hx
  refine aligned_of_mem hsound ?_
  change x ∈ free before.state.context.freelist
  rw [← hallocated.free_eq hframe]
  exact Multiset.mem_add.mpr (Or.inr hx)

theorem Consistent.of_total (hconsistent : Consistent before) (hsound : Sound after.freelist)
    (htotal : after.total ≤ before.total)
    (hreal : ∀ frame ∈ after.owned, frame % 4096 = 0 ∧ frame ≠ 0 ∧ frame + 4096 ≤ 2 ^ 64) :
    Consistent after :=
  ⟨hsound, Multiset.nodup_of_le htotal hconsistent.nodup, hreal⟩

theorem conserves_of_allocated {count frame : ℕ} {state : AllocatorState}
    (hconsistent : Consistent before) (hallocated : Allocated before.state count frame state) :
    Consistent ⟨state, before.owned + if frame = 0 then 0 else strided 4096 frame count⟩ ∧
      (FrameConfig.mk state
        (before.owned + if frame = 0 then 0 else strided 4096 frame count)).total =
          before.total := by
  refine ⟨hconsistent.of_total hallocated.sound hallocated.total_eq.le ?_, hallocated.total_eq⟩
  intro x hx
  rcases Multiset.mem_add.mp hx with hx | hx
  · exact hconsistent.real x hx
  · split_ifs at hx with hframe
    · exact absurd hx (Multiset.notMem_zero x)
    · exact hallocated.real hconsistent.sound hframe x hx

theorem conserves_of_freed {freed : Multiset ℕ} {state : AllocatorState}
    (hconsistent : Consistent before) (hfreed : Freed before.state freed state)
    (howned : freed ≤ before.owned) :
    Consistent ⟨state, before.owned - freed⟩ ∧
      (FrameConfig.mk state (before.owned - freed)).total = before.total :=
  ⟨hconsistent.of_total hfreed.sound (hfreed.total_eq howned).le fun x hx ↦
    hconsistent.real x (Multiset.mem_of_le (Multiset.sub_le_self _ _) hx), hfreed.total_eq howned⟩

/-- Every call keeps the invariant and all frames, unless it appends to a full table. -/
theorem FrameStep.conserves (hconsistent : Consistent before)
    (hstep : FrameStep hhdmOffset before event after)
    (hroom : before.freelist.cursor = 255 →
      ∀ physical count ok, event ≠ .freeFrames physical count ok) :
    Consistent after ∧ after.total = before.total := by
  cases hstep with
  | allocateFrame hrun =>
    obtain ⟨frame, state, hspec, hallocated⟩ :=
      memoryAllocateFrame_spec hhdmOffset hconsistent.sound
    obtain ⟨rfl, rfl⟩ := Prod.mk.inj (Option.some.inj (hspec.symm.trans hrun))
    simpa only [FrameEvent.obtained, strided_one] using
      conserves_of_allocated hconsistent hallocated
  | allocateFrames hcount hrun =>
    obtain ⟨frame, state, hspec, hallocated⟩ :=
      memoryAllocateFrames_spec hhdmOffset hconsistent.sound hcount
    obtain ⟨rfl, rfl⟩ := Prod.mk.inj (Option.some.inj (hspec.symm.trans hrun))
    exact conserves_of_allocated hconsistent hallocated
  | @freeFrame physical ok state howned hrun =>
    obtain ⟨ok', state', hspec, -, hfailed, hfreed⟩ :=
      memoryFreeFrame_spec hconsistent.sound (hconsistent.releasable_one howned)
    obtain ⟨rfl, rfl⟩ := Prod.mk.inj (Option.some.inj (hspec.symm.trans hrun))
    cases ok' with
    | true =>
      exact conserves_of_freed hconsistent (hfreed rfl).1 (Multiset.singleton_le.mpr howned)
    | false =>
      obtain rfl := hfailed rfl
      simpa [FrameEvent.released] using hconsistent
  | @freeFrames physical count ok state haligned hword howned hrun =>
    have hcursor : before.freelist.cursor < 255 := by
      have hle := hconsistent.sound.cursor_le
      have hne : before.freelist.cursor ≠ 255 := fun h ↦ hroom h physical count ok rfl
      omega
    obtain ⟨state', hspec, hfreed, -⟩ := memoryFreeFrames_spec hconsistent.sound hcursor
      (hconsistent.releasable haligned hword howned)
    obtain ⟨rfl, rfl⟩ := Prod.mk.inj (Option.some.inj (hspec.symm.trans hrun))
    exact conserves_of_freed hconsistent hfreed howned

end Step

section Runs

variable {hhdmOffset : ℕ} {start final : FrameConfig} {taken : List (Taken FrameConfig FrameEvent)}

theorem consistent_start (hsound : Sound start.freelist) (howned : start.owned = 0) :
    Consistent start := by
  refine ⟨hsound, ?_, ?_⟩
  · rw [FrameConfig.total, howned, add_zero]
    exact hsound.nodup
  · rw [howned]
    simp

/-- While the cursor stays in range, every run keeps the invariant and all frames. -/
theorem run_conserves (hsound : Sound start.freelist) (howned : start.owned = 0)
    (hrun : Run (FrameStep hhdmOffset) start taken final)
    (hcursors : ∀ t ∈ taken, t.before.freelist.cursor ≤ 127) :
    Consistent final ∧ final.total = free start.freelist := by
  refine Run.invariant (fun config ↦ Consistent config ∧ config.total = free start.freelist)
    (fun t ↦ t.before.freelist.cursor ≤ 127) ⟨consistent_start hsound howned, ?_⟩ ?_ hrun hcursors
  · rw [FrameConfig.total, howned, add_zero]
  · rintro before event after ⟨hconsistent, htotal⟩ hstep hcursor
    obtain ⟨hconsistent', htotal'⟩ := hstep.conserves hconsistent fun hfull ↦ by
      dsimp only at hcursor
      omega
    exact ⟨hconsistent', htotal'.trans htotal⟩

/-- The free segments are disjoint, and the free and the owned frames make up the frames that were
free at the start, each once. -/
structure Partitioned (start config : FrameConfig) : Prop where
  segments : ∀ first < config.freelist.cursor, ∀ second < config.freelist.cursor,
    first ≠ second → Disjoint (segmentFrames (config.freelist.segments first))
      (segmentFrames (config.freelist.segments second))
  total_eq : free config.freelist + config.owned = free start.freelist
  nodup : (free start.freelist).Nodup

/-- The routine ends; it answers 0 exactly when no single segment has `count` frames, and then
leaves the table alone; otherwise it answers a run of free frames and takes exactly these. -/
def AllocatesExactly (routine : Code ℕ) (count : ℕ) (config : FrameConfig) : Prop :=
  ∃ frame after, run exec routine config.state = some (frame, after) ∧
    (frame = 0 ↔
      ∀ index < config.freelist.cursor, (config.freelist.segments index).length < count) ∧
    (frame = 0 → after.context.freelist = config.freelist) ∧
    (frame ≠ 0 → free after.context.freelist + strided 4096 frame count = free config.freelist)

/-- The routine ends, answers true, and adds exactly the given frames to the free ones. -/
def FreesExactly (routine : Code Bool) (freed : Multiset ℕ) (config : FrameConfig) : Prop :=
  ∃ after, run exec routine config.state = some (true, after) ∧
    free after.context.freelist = free config.freelist + freed

theorem allocatesExactly_of_spec {routine : Code ℕ} {count : ℕ}
    (hcursor : final.freelist.cursor ≤ 127)
    (hspec : ∃ frame after, run exec routine final.state = some (frame, after) ∧
      Allocated final.state count frame after) : AllocatesExactly routine count final := by
  obtain ⟨frame, after, hrun, hallocated⟩ := hspec
  have hlimit : scanLimit final.state.context.freelist = final.freelist.cursor :=
    scanLimit_of_lt (Nat.lt_succ_of_le hcursor)
  have hfails := hallocated.fails_iff
  rw [hlimit] at hfails
  exact ⟨frame, after, hrun, hfails, fun h ↦ by rw [hallocated.unchanged h], hallocated.free_eq⟩

theorem freesExactly_frame {physical : ℕ} (hconsistent : Consistent final)
    (hcursor : final.freelist.cursor ≤ 127) (howned : physical ∈ final.owned) :
    FreesExactly (memoryFreeFrame physical) {physical} final := by
  obtain ⟨ok, after, hrun, hfails, -, hfreed⟩ :=
    memoryFreeFrame_spec hconsistent.sound (hconsistent.releasable_one howned)
  cases ok with
  | true => exact ⟨after, hrun, (hfreed rfl).1.free_eq⟩
  | false =>
    have hfull : final.freelist.cursor = 255 := (hfails.mp rfl).1
    omega

theorem freesExactly_frames {physical count : ℕ} (hconsistent : Consistent final)
    (hcursor : final.freelist.cursor ≤ 127) (haligned : physical % 4096 = 0)
    (hword : physical < 2 ^ 64) (howned : strided 4096 physical count ≤ final.owned) :
    FreesExactly (memoryFreeFrames physical count) (strided 4096 physical count) final := by
  obtain ⟨after, hrun, hfreed, -⟩ := memoryFreeFrames_spec hconsistent.sound
    (lt_of_le_of_lt hcursor (by norm_num)) (hconsistent.releasable haligned hword howned)
  exact ⟨after, hrun, hfreed.free_eq⟩

/-- The frame allocator partitions memory: in every state that calls reach while the cursor stays
in `0..127`, the free segments are disjoint and together with the owned frames make up the initial
frames, and every next call takes or adds exactly the frames it answers or is given. -/
theorem frame_allocator_partition (hsound : Sound start.freelist) (howned : start.owned = 0)
    (hrun : Run (FrameStep hhdmOffset) start taken final)
    (hcursors : ∀ t ∈ taken, t.before.freelist.cursor ≤ 127)
    (hcursor : final.freelist.cursor ≤ 127) :
    Partitioned start final ∧
      AllocatesExactly (memoryAllocateFrame hhdmOffset) 1 final ∧
      (∀ count, 1 ≤ count →
        AllocatesExactly (memoryAllocateFrames hhdmOffset count) count final) ∧
      (∀ physical ∈ final.owned, FreesExactly (memoryFreeFrame physical) {physical} final) ∧
      ∀ physical count, physical % 4096 = 0 → physical < 2 ^ 64 →
        strided 4096 physical count ≤ final.owned →
        FreesExactly (memoryFreeFrames physical count) (strided 4096 physical count) final := by
  obtain ⟨hconsistent, htotal⟩ := run_conserves hsound howned hrun hcursors
  refine ⟨⟨hconsistent.sound.disjoint, htotal, hsound.nodup⟩, ?_, ?_, ?_, ?_⟩
  · exact allocatesExactly_of_spec hcursor (memoryAllocateFrame_spec _ hconsistent.sound)
  · intro count hcount
    exact allocatesExactly_of_spec hcursor (memoryAllocateFrames_spec _ hconsistent.sound hcount)
  · exact fun physical hphysical ↦ freesExactly_frame hconsistent hcursor hphysical
  · exact fun physical count haligned hword hphysical ↦
      freesExactly_frames hconsistent hcursor haligned hword hphysical

/-- A table of one segment with two frames. -/
def twoFrames : FrameConfig where
  state :=
    { bytes := fun _ ↦ 0
      context := { freelist := { segments := fun _ ↦ ⟨4096, 2⟩, cursor := 1 }, heapPages := 0 }
      memoryLock := 0 }
  owned := 0

theorem sound_twoFrames : Sound twoFrames.freelist where
  cursor_le := by decide
  aligned _ _ _ := by norm_num [FrameConfig.freelist, twoFrames]
  base_lt _ _ := by norm_num [FrameConfig.freelist, twoFrames]
  end_le _ _ := by norm_num [FrameConfig.freelist, twoFrames]
  disjoint first hfirst second hsecond hne := by
    have hone : twoFrames.freelist.cursor = 1 := rfl
    omega
  zero_not_mem := by decide

/-- The state after the second frame was allocated. -/
def oneFrame : FrameConfig where
  state := afterFrame 0 0 twoFrames.state
  owned := {8192}

theorem frameStep_twoFrames : FrameStep 0 twoFrames (.allocateFrame 8192) oneFrame := by
  have hrun : run exec (memoryAllocateFrame 0) twoFrames.state =
      some (8192, afterFrame 0 0 twoFrames.state) := run_memoryAllocateFrame sound_twoFrames
  exact FrameStep.allocateFrame hrun

theorem frame_allocator_partition_oneFrame :
    Partitioned twoFrames oneFrame ∧
      FreesExactly (memoryFreeFrame 8192) {8192} oneFrame := by
  have hrun : Run (FrameStep 0) twoFrames
      ([] ++ [⟨twoFrames, .allocateFrame 8192, oneFrame⟩]) oneFrame :=
    Run.snoc _ Run.nil frameStep_twoFrames
  have hpartition := frame_allocator_partition sound_twoFrames rfl hrun
    (by simp [FrameConfig.freelist, twoFrames]) (by decide)
  exact ⟨hpartition.1, hpartition.2.2.2.1 8192 (Multiset.mem_singleton_self _)⟩

end Runs

end SideHOS.Frames
