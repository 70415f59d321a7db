import SideHOS.Frames.Run

/-!
# How the table changes keep frames

The three changes of the table, as multiset equations on the frames it describes, and the
soundness of the table after each.  An entry of length zero keeps its base and may be extended
again from either side.
-/

namespace SideHOS.Frames

open Kernel Machine Machine.Word64

variable {freelist : FreeList} {index limit count physical : ℕ} {segment : Segment}

/-- A sound table stays sound when one entry is replaced by an aligned run and no frame is then
described twice. -/
theorem Sound.setSegment (hsound : Sound freelist) (hindex : index < freelist.cursor)
    (haligned : 0 < segment.length → segment.base % 4096 = 0) (hbase : segment.base < 2 ^ 64)
    (hend : segment.base + 4096 * segment.length ≤ 2 ^ 64)
    (hnodup : (free (freelist.setSegment index segment)).Nodup)
    (hzero : 0 ∉ free (freelist.setSegment index segment)) :
    Sound (freelist.setSegment index segment) := by
  have hentry (P : Segment → Prop) (hnew : P segment)
      (hold : ∀ other < freelist.cursor, P (freelist.segments other)) :
      ∀ other < freelist.cursor, P ((freelist.setSegment index segment).segments other) := by
    intro other hother
    by_cases hne : other = index
    · subst hne
      rwa [setSegment_segments_self]
    · simpa [FreeList.setSegment, Function.update_of_ne hne] using hold other hother
  exact {
    cursor_le := hsound.cursor_le
    aligned := hentry (fun s ↦ 0 < s.length → s.base % 4096 = 0) haligned hsound.aligned
    base_lt := hentry (fun s ↦ s.base < 2 ^ 64) hbase hsound.base_lt
    end_le := hentry (fun s ↦ s.base + 4096 * s.length ≤ 2 ^ 64) hend hsound.end_le
    disjoint := disjoint_of_nodup hnodup
    zero_not_mem := hzero }

theorem frames_shrunk (hindex : index < limit) (hcount : count ≤ (freelist.segments index).length) :
    frames (shrunk freelist count index) limit +
        strided 4096 (topFrame (freelist.segments index) count) count =
      frames freelist limit := by
  have hset := frames_setSegment freelist { freelist.segments index with
    length := (freelist.segments index).length - count } hindex
  have hsplit := strided_sub 4096 (freelist.segments index).base hcount
  unfold segmentFrames at hset
  rw [← hsplit, add_comm (strided _ _ _) (strided _ (_ + _) _), ← add_assoc] at hset
  exact add_right_cancel hset

theorem sound_shrunk (hsound : Sound freelist) (hindex : index < freelist.cursor)
    (hcount : count ≤ (freelist.segments index).length) : Sound (shrunk freelist count index) := by
  have hle : free (shrunk freelist count index) ≤ free freelist := by
    unfold free
    rw [← frames_shrunk hindex hcount]
    exact Multiset.le_add_right _ _
  have haligned := hsound.aligned index hindex
  have hbase := hsound.base_lt index hindex
  have hend := hsound.end_le index hindex
  refine hsound.setSegment hindex (fun hlength ↦ haligned ?_) hbase ?_
    (Multiset.nodup_of_le hle hsound.nodup) fun hmem ↦
      hsound.zero_not_mem (Multiset.mem_of_le hle hmem)
  · dsimp only at hlength
    omega
  · dsimp only
    omega

theorem segmentFrames_returned (hbase : segment.base < 2 ^ 64)
    (hend : segment.base + 4096 * segment.length ≤ 2 ^ 64)
    (hzero : 0 ∉ segmentFrames segment) (hphysical : physical ≠ 0)
    (hword : physical + 4096 ≤ 2 ^ 64)
    (hadjacent : endAdjacent segment physical = true ∨ startAdjacent segment physical = true) :
    segmentFrames (returned segment physical) = segmentFrames segment + {physical} ∧
      (returned segment physical).base + 4096 * (returned segment physical).length ≤ 2 ^ 64 := by
  unfold returned
  split_ifs with hatEnd
  · have hphys : segment.base + 4096 * segment.length = physical := by
      rw [endAdjacent_iff] at hatEnd
      omega
    subst hphys
    refine ⟨?_, by dsimp only; linarith⟩
    rw [segmentFrames, segmentFrames, strided_succ]
  · have hatStart := hadjacent.resolve_left hatEnd
    rw [startAdjacent_iff] at hatStart
    by_cases hlength : segment.length = 0
    · simp only [segmentFrames, hlength]
      simp
      omega
    · have hne : segment.base ≠ 0 := by
        intro hbase0
        exact hzero (mem_segmentFrames.mpr ⟨0, by omega, by omega⟩)
      have hphys : physical + 4096 = segment.base := by omega
      refine ⟨?_, by dsimp only; linarith⟩
      rw [segmentFrames, segmentFrames, strided_succ_start, hphys, add_comm]

theorem returned_aligned (segment : Segment) (hphysical : physical % 4096 = 0) :
    (returned segment physical).base % 4096 = 0 := by
  unfold returned
  split_ifs with hatEnd
  · rw [endAdjacent_iff] at hatEnd
    dsimp only
    omega
  · exact hphysical

/-- Returning an aligned frame that the table does not describe adds exactly that frame. -/
theorem sound_returned (hsound : Sound freelist) (hindex : index < freelist.cursor)
    (hadjacent : endAdjacent (freelist.segments index) physical = true ∨
      startAdjacent (freelist.segments index) physical = true)
    (haligned : physical % 4096 = 0) (hphysical : physical ≠ 0)
    (hword : physical + 4096 ≤ 2 ^ 64) (hnew : physical ∉ free freelist) :
    Sound (freelist.setSegment index (returned (freelist.segments index) physical)) ∧
      ∀ limit, index < limit →
        frames (freelist.setSegment index (returned (freelist.segments index) physical)) limit =
          frames freelist limit + {physical} := by
  have hzero : 0 ∉ segmentFrames (freelist.segments index) := fun hmem ↦
    hsound.zero_not_mem (mem_frames.mpr ⟨index, hindex, hmem⟩)
  have hend := hsound.end_le index hindex
  obtain ⟨hreturned, hend'⟩ := segmentFrames_returned (hsound.base_lt index hindex) hend hzero
    hphysical hword hadjacent
  have hframes (limit : ℕ) (hlimit : index < limit) :
      frames (freelist.setSegment index (returned (freelist.segments index) physical)) limit =
        frames freelist limit + {physical} := by
    have hset := frames_setSegment freelist (returned (freelist.segments index) physical) hlimit
    rw [hreturned, add_comm (segmentFrames _), ← add_assoc] at hset
    exact add_right_cancel hset
  have hfree : free (freelist.setSegment index (returned (freelist.segments index) physical)) =
      free freelist + {physical} := hframes _ hindex
  refine ⟨hsound.setSegment hindex (fun _ ↦ returned_aligned _ haligned) ?_ hend' ?_ ?_, hframes⟩
  · have hlength : 0 < (returned (freelist.segments index) physical).length := by
      unfold returned
      split_ifs <;> exact Nat.succ_pos _
    omega
  · rw [hfree, Multiset.nodup_add]
    exact ⟨hsound.nodup, Multiset.nodup_singleton _, Multiset.disjoint_singleton.mpr hnew⟩
  · rw [hfree, Multiset.mem_add, Multiset.mem_singleton]
    rintro (hmem | hmem)
    · exact hsound.zero_not_mem hmem
    · exact hphysical hmem.symm

theorem frames_appended_of_le (hlimit : limit ≤ freelist.cursor) :
    frames (appended freelist segment) limit = frames freelist limit :=
  frames_congr fun other hother ↦ Function.update_of_ne (by omega) _ _

theorem frames_appended_of_lt (hlimit : limit = freelist.cursor + 1) :
    frames (appended freelist segment) limit = free freelist + segmentFrames segment := by
  rw [hlimit, frames_succ, frames_appended_of_le le_rfl]
  congr 2
  exact Function.update_self ..

theorem sound_appended (hsound : Sound freelist) (hcursor : freelist.cursor < 255)
    (haligned : 0 < segment.length → segment.base % 4096 = 0) (hbase : segment.base < 2 ^ 64)
    (hend : segment.base + 4096 * segment.length ≤ 2 ^ 64)
    (hnew : Disjoint (free freelist) (segmentFrames segment)) (hzero : 0 ∉ segmentFrames segment) :
    Sound (appended freelist segment) ∧
      free (appended freelist segment) = free freelist + segmentFrames segment := by
  have hfree : free (appended freelist segment) = free freelist + segmentFrames segment :=
    frames_appended_of_lt rfl
  have hentry (P : Segment → Prop) (hadded : P segment)
      (hold : ∀ other < freelist.cursor, P (freelist.segments other)) :
      ∀ other < freelist.cursor + 1, P ((appended freelist segment).segments other) := by
    intro other hother
    by_cases hne : other = freelist.cursor
    · subst hne
      simpa [appended] using hadded
    · simpa [appended, Function.update_of_ne hne] using hold other (by omega)
  refine ⟨{
    cursor_le := hcursor
    aligned := hentry (fun s ↦ 0 < s.length → s.base % 4096 = 0) haligned hsound.aligned
    base_lt := hentry (fun s ↦ s.base < 2 ^ 64) hbase hsound.base_lt
    end_le := hentry (fun s ↦ s.base + 4096 * s.length ≤ 2 ^ 64) hend hsound.end_le
    disjoint := disjoint_of_nodup ?_
    zero_not_mem := ?_ }, hfree⟩
  · change (free (appended freelist segment)).Nodup
    rw [hfree, Multiset.nodup_add]
    exact ⟨hsound.nodup, nodup_strided (by norm_num), hnew⟩
  · rw [hfree, Multiset.mem_add]
    rintro (hmem | hmem)
    · exact hsound.zero_not_mem hmem
    · exact hzero hmem

end SideHOS.Frames
