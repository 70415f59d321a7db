import SideHOS.Kernel.Frames
import SideHOS.Machine.StridedRun

/-!
# Frames described by the segment table

A segment describes the physical frames `base + 4096 * k` for `k < length`.  `frames` collects the
frames of the first entries of the table; the table's own reading of the cursor is unsigned
(`free`), the allocation loops' reading is signed (`scanned`).  A table is `Sound` when its
segments are aligned, disjoint runs of real frames.
-/

namespace SideHOS.Frames

open Kernel Machine Machine.Word64

def segmentFrames (segment : Segment) : Multiset ℕ := strided 4096 segment.base segment.length

/-- The frames of the first `limit` entries. -/
def frames (freelist : FreeList) (limit : ℕ) : Multiset ℕ :=
  ∑ index ∈ Finset.range limit, segmentFrames (freelist.segments index)

/-- Every frame of the table, with the cursor read as the free routines read it. -/
def free (freelist : FreeList) : Multiset ℕ := frames freelist freelist.cursor

/-- How many entries the allocation loops scan: they read the cursor as signed. -/
def scanLimit (freelist : FreeList) : ℕ := (int8 freelist.cursor).toNat

def scanned (freelist : FreeList) : Multiset ℕ := frames freelist (scanLimit freelist)

/-- An entry that the allocation loops look at has so many frames. -/
def Affords (freelist : FreeList) (count : ℕ) : Prop :=
  ∃ index < scanLimit freelist, count ≤ (freelist.segments index).length

/-- Aligned, pairwise disjoint runs of frames below `2 ^ 64`, frame 0 not among them. -/
structure Sound (freelist : FreeList) : Prop where
  cursor_le : freelist.cursor ≤ 255
  aligned : ∀ index < freelist.cursor,
    0 < (freelist.segments index).length → (freelist.segments index).base % 4096 = 0
  base_lt : ∀ index < freelist.cursor, (freelist.segments index).base < 2 ^ 64
  end_le : ∀ index < freelist.cursor,
    (freelist.segments index).base + 4096 * (freelist.segments index).length ≤ 2 ^ 64
  disjoint : ∀ first < freelist.cursor, ∀ second < freelist.cursor, first ≠ second →
    Disjoint (segmentFrames (freelist.segments first)) (segmentFrames (freelist.segments second))
  zero_not_mem : 0 ∉ free freelist

theorem scanLimit_of_lt {freelist : FreeList} (h : freelist.cursor < 128) :
    scanLimit freelist = freelist.cursor := by
  simp [scanLimit, int8_of_lt h]

theorem scanLimit_of_ge {freelist : FreeList} (h : 128 ≤ freelist.cursor)
    (hbyte : freelist.cursor < 256) : scanLimit freelist = 0 := by
  have hneg := int8_neg h hbyte
  unfold scanLimit
  omega

theorem scanLimit_le (freelist : FreeList) (hbyte : freelist.cursor < 256) :
    scanLimit freelist ≤ freelist.cursor := by
  by_cases h : freelist.cursor < 128
  · exact (scanLimit_of_lt h).le
  · rw [scanLimit_of_ge (by omega) hbyte]
    exact Nat.zero_le _

/-- The scanned entries are entries of the table. -/
theorem Sound.index_lt_cursor {freelist : FreeList} {index : ℕ} (h : Sound freelist)
    (hindex : index < scanLimit freelist) : index < freelist.cursor :=
  hindex.trans_le (scanLimit_le freelist (Nat.lt_succ_of_le h.cursor_le))

theorem lt_scanLimit_iff {freelist : FreeList} {index : ℕ} :
    (index : ℤ) < int8 freelist.cursor ↔ index < scanLimit freelist := by
  unfold scanLimit
  omega

theorem scanLimit_lt (freelist : FreeList) (hbyte : freelist.cursor < 256) :
    scanLimit freelist < 128 := by
  by_cases h : freelist.cursor < 128
  · rwa [scanLimit_of_lt h]
  · rw [scanLimit_of_ge (by omega) hbyte]
    norm_num

theorem mem_segmentFrames {segment : Segment} {frame : ℕ} :
    frame ∈ segmentFrames segment ↔ ∃ k < segment.length, segment.base + 4096 * k = frame :=
  mem_strided

theorem mem_frames {freelist : FreeList} {limit frame : ℕ} :
    frame ∈ frames freelist limit ↔
      ∃ index < limit, frame ∈ segmentFrames (freelist.segments index) := by
  simp [frames, Multiset.mem_sum]

theorem frames_mono {freelist : FreeList} {low high : ℕ} (h : low ≤ high) :
    frames freelist low ≤ frames freelist high :=
  Finset.sum_le_sum_of_subset (Finset.range_mono h)

theorem frames_congr {first second : FreeList} {limit : ℕ}
    (h : ∀ index < limit, first.segments index = second.segments index) :
    frames first limit = frames second limit :=
  Finset.sum_congr rfl fun index hindex ↦ by rw [h index (Finset.mem_range.mp hindex)]

theorem segmentFrames_eq_zero_iff {segment : Segment} :
    segmentFrames segment = 0 ↔ segment.length = 0 := by
  rw [segmentFrames, ← Multiset.card_eq_zero, card_strided]

theorem segmentFrames_le_free {freelist : FreeList} {index : ℕ} (hindex : index < freelist.cursor) :
    segmentFrames (freelist.segments index) ≤ free freelist := by
  have hmem := Finset.mem_range.mpr hindex
  rw [free, frames, ← Finset.add_sum_erase _ _ hmem]
  exact Multiset.le_add_right _ _

/-- What the table gains by replacing one entry is what the entry gains. -/
theorem frames_setSegment (freelist : FreeList) {limit index : ℕ} (segment : Segment)
    (hindex : index < limit) :
    frames (freelist.setSegment index segment) limit + segmentFrames (freelist.segments index) =
      frames freelist limit + segmentFrames segment := by
  have hmem := Finset.mem_range.mpr hindex
  have hothers : ∀ other ∈ (Finset.range limit).erase index,
      segmentFrames ((freelist.setSegment index segment).segments other) =
        segmentFrames (freelist.segments other) := by
    intro other hother
    simp [FreeList.setSegment, Function.update_of_ne (Finset.ne_of_mem_erase hother)]
  have hself : segmentFrames ((freelist.setSegment index segment).segments index) =
      segmentFrames segment := by
    simp [FreeList.setSegment]
  unfold frames
  rw [← Finset.add_sum_erase _ _ hmem, ← Finset.add_sum_erase (Finset.range limit)
    (fun other ↦ segmentFrames (freelist.segments other)) hmem, hself,
    Finset.sum_congr rfl hothers]
  abel

/-- One more entry. -/
theorem frames_succ (freelist : FreeList) (limit : ℕ) :
    frames freelist (limit + 1) =
      frames freelist limit + segmentFrames (freelist.segments limit) :=
  Finset.sum_range_succ _ _

theorem Sound.nodup {freelist : FreeList} (h : Sound freelist) : (free freelist).Nodup := by
  have hinitial (limit : ℕ) (hlimit : limit ≤ freelist.cursor) :
      (frames freelist limit).Nodup := by
    induction limit with
    | zero => simp [frames]
    | succ limit ih =>
      rw [frames_succ, Multiset.nodup_add]
      refine ⟨ih (by omega), nodup_strided (by norm_num), ?_⟩
      rw [Multiset.disjoint_left]
      intro frame hframe
      obtain ⟨index, hindex, hmem⟩ := mem_frames.mp hframe
      exact Multiset.disjoint_left.mp
        (h.disjoint index (by omega) limit (by omega) (by omega)) hmem
  exact hinitial _ le_rfl

theorem disjoint_of_nodup {freelist : FreeList} {limit : ℕ} (h : (frames freelist limit).Nodup) :
    ∀ first < limit, ∀ second < limit, first ≠ second →
      Disjoint (segmentFrames (freelist.segments first))
        (segmentFrames (freelist.segments second)) := by
  intro first hfirst second hsecond hne
  have hpair : ({first, second} : Finset ℕ) ⊆ Finset.range limit := by
    intro index hindex
    rcases Finset.mem_insert.mp hindex with rfl | hindex
    · exact Finset.mem_range.mpr hfirst
    · rw [Finset.mem_singleton.mp hindex]
      exact Finset.mem_range.mpr hsecond
  have hle : segmentFrames (freelist.segments first) + segmentFrames (freelist.segments second) ≤
      frames freelist limit := by
    have hsum := Finset.sum_le_sum_of_subset hpair
      (f := fun index ↦ segmentFrames (freelist.segments index))
    rwa [Finset.sum_pair hne] at hsum
  exact (Multiset.nodup_add.mp (Multiset.nodup_of_le hle h)).2.2

theorem aligned_of_mem {freelist : FreeList} (h : Sound freelist) {frame : ℕ}
    (hframe : frame ∈ free freelist) :
    frame % 4096 = 0 ∧ frame ≠ 0 ∧ frame + 4096 ≤ 2 ^ 64 := by
  obtain ⟨index, hindex, hmem⟩ := mem_frames.mp hframe
  obtain ⟨k, hk, rfl⟩ := mem_segmentFrames.mp hmem
  have haligned := h.aligned index hindex (by omega)
  have hend := h.end_le index hindex
  refine ⟨by omega, ?_, by omega⟩
  intro hzero
  exact h.zero_not_mem (hzero ▸ hframe)

end SideHOS.Frames
