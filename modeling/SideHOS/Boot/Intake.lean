import SideHOS.Kernel.Boot
import SideHOS.Frames.Table
import SideHOS.Machine.Extent

/-!
# What `kmain` makes of the memory map

Each usable entry becomes at most one segment, from its start rounded up to its last byte rounded
up.  The segment describes the whole frames of the entry when the second rounding changes nothing
that matters: when the entry ends on a page boundary or one byte behind it, or contains no whole
frame and no page boundary before its last byte.
-/

namespace SideHOS.Boot

open Kernel Machine Machine.Word64

section Entry

theorem alignUp_of_lt {address : ℕ} (h : address + 4095 < 2 ^ 64) :
    alignUp address = (address + 4095) / 4096 * 4096 := by
  rw [alignUp, add_of_lt h]

def extent (entry : MemmapEntry) : Extent := ⟨entry.base, entry.length⟩

def Usable (entry : MemmapEntry) : Prop := entry.type = limineMemmapUsable

instance (entry : MemmapEntry) : Decidable (Usable entry) :=
  inferInstanceAs (Decidable (entry.type = limineMemmapUsable))

def WholeFrame (entry : MemmapEntry) (frame : ℕ) : Prop :=
  frame % 4096 = 0 ∧ Extent.Within ⟨frame, 4096⟩ (extent entry)

/-- Rounding the last byte up gives the end of the last whole frame: the entry ends on a page
boundary or one byte behind it, or not behind the page boundary where its frames would start.  An
empty entry one byte behind a page boundary is different, since its last byte is on the boundary,
and is rounded below its start. -/
def RoundsExactly (entry : MemmapEntry) : Prop :=
  ((entry.base + entry.length) % 4096 ≤ 1 ∨ entry.base + entry.length ≤ alignUp entry.base) ∧
    ¬ (entry.length = 0 ∧ entry.base % 4096 = 1)

instance (entry : MemmapEntry) : Decidable (RoundsExactly entry) :=
  inferInstanceAs (Decidable (_ ∧ _))

def segmentOf (entry : MemmapEntry) : Option Segment :=
  let alignedStart := alignUp entry.base
  let alignedEnd := alignUp (sub (add entry.base entry.length) 1)
  if Usable entry ∧ alignedStart ≠ alignedEnd then
    some ⟨alignedStart, sub alignedEnd alignedStart / 2 ^ 12⟩
  else none

theorem intakeEntry_eq (intake : Intake) (entry : MemmapEntry) :
    intakeEntry intake entry = (segmentOf entry).elim intake intake.append := by
  unfold intakeEntry segmentOf Usable
  by_cases husable : entry.type = limineMemmapUsable
  · by_cases haligned : alignUp entry.base = alignUp (sub (add entry.base entry.length) 1)
    · simp [husable, haligned]
    · simp [husable, haligned]
  · simp [husable]

variable {entry : MemmapEntry}

/-- The last byte of an entry rounded up; an entry that ends at address 0 rounds up to 0. -/
theorem alignUp_last (hbound : entry.base + entry.length + 4095 < 2 ^ 64) :
    alignUp (sub (add entry.base entry.length) 1) =
      (entry.base + entry.length + 4094) / 4096 * 4096 := by
  rw [add_of_lt (by omega)]
  unfold alignUp add sub
  omega

theorem segmentOf_of_usable (husable : Usable entry)
    (hbound : entry.base + entry.length + 4095 < 2 ^ 64) :
    segmentOf entry =
      if alignUp entry.base = (entry.base + entry.length + 4094) / 4096 * 4096 then none
      else some ⟨alignUp entry.base,
        sub ((entry.base + entry.length + 4094) / 4096 * 4096) (alignUp entry.base) / 2 ^ 12⟩ := by
  simp only [segmentOf, alignUp_last hbound, husable, true_and, ne_eq, ite_not]

/-- An entry that rounds exactly is stored as its whole frames. -/
theorem segmentOf_exact (husable : Usable entry)
    (hbound : entry.base + entry.length + 4095 < 2 ^ 64) (hexact : RoundsExactly entry) :
    (segmentOf entry = none ∧ ∀ frame, ¬ WholeFrame entry frame) ∨
      ∃ segment, segmentOf entry = some segment ∧ segment.base % 4096 = 0 ∧ 0 < segment.length ∧
        ∀ frame, frame ∈ Frames.segmentFrames segment ↔ WholeFrame entry frame := by
  have hstart : alignUp entry.base = (entry.base + 4095) / 4096 * 4096 := alignUp_of_lt (by omega)
  rw [segmentOf_of_usable husable hbound]
  simp only [RoundsExactly, WholeFrame, extent, Extent.Within, Extent.stop, hstart] at hexact ⊢
  split
  · refine Or.inl ⟨rfl, fun frame hframe ↦ ?_⟩
    omega
  · have hlt : (entry.base + 4095) / 4096 * 4096 <
        (entry.base + entry.length + 4094) / 4096 * 4096 := by omega
    have hword : (entry.base + entry.length + 4094) / 4096 * 4096 < 2 ^ 64 :=
      (Nat.div_mul_le_self _ _).trans_lt (by omega)
    rw [sub_of_le hlt.le hword]
    refine Or.inr ⟨_, rfl, ?_, ?_, fun frame ↦ ?_⟩
    · dsimp only
      omega
    · dsimp only
      omega
    · rw [Frames.mem_segmentFrames]
      dsimp only
      refine ⟨?_, fun hframe ↦ ?_⟩
      · rintro ⟨k, hk, rfl⟩
        omega
      · exact ⟨(frame - (entry.base + 4095) / 4096 * 4096) / 4096, by omega, by omega⟩

/-- An entry that does not is stored with a frame which it does not contain, although it contains
the first byte of the frame or the frame is at the end of the address space. -/
theorem segmentOf_inexact (husable : Usable entry)
    (hbound : entry.base + entry.length + 4095 < 2 ^ 64) (hexact : ¬ RoundsExactly entry) :
    ∃ segment frame, segmentOf entry = some segment ∧ frame ∈ Frames.segmentFrames segment ∧
      ((extent entry).Holds frame ∧ ¬ WholeFrame entry frame ∨ 2 ^ 64 ≤ frame + 4096) := by
  have hstart : alignUp entry.base = (entry.base + 4095) / 4096 * 4096 := alignUp_of_lt (by omega)
  rw [segmentOf_of_usable husable hbound]
  simp only [RoundsExactly, WholeFrame, extent, Extent.Holds, Extent.Within, Extent.stop, hstart,
    not_and_or] at hexact ⊢
  rw [if_neg (by omega)]
  by_cases hempty : entry.length = 0 ∧ entry.base % 4096 = 1
  · have hlength : sub ((entry.base + entry.length + 4094) / 4096 * 4096)
        ((entry.base + 4095) / 4096 * 4096) / 2 ^ 12 = 2 ^ 52 - 1 := by
      unfold sub
      omega
    rw [hlength]
    refine ⟨_, (entry.base + 4095) / 4096 * 4096 + 4096 * (2 ^ 52 - 2), rfl,
      Frames.mem_segmentFrames.mpr ⟨2 ^ 52 - 2, by norm_num, rfl⟩, Or.inr ?_⟩
    omega
  · have hlast : 2 ≤ (entry.base + entry.length) % 4096 ∧
        (entry.base + 4095) / 4096 * 4096 < entry.base + entry.length := by omega
    rw [sub_of_le (by omega) (by omega)]
    refine ⟨_, (entry.base + entry.length) / 4096 * 4096, rfl, Frames.mem_segmentFrames.mpr
      ⟨((entry.base + entry.length) / 4096 * 4096 - (entry.base + 4095) / 4096 * 4096) / 4096,
        ?_, ?_⟩, Or.inl ⟨?_, ?_⟩⟩
    · dsimp only
      omega
    · dsimp only
      omega
    · omega
    · omega

end Entry

section Table

variable {intake : Intake} {segment : Segment} {entries : List MemmapEntry}

def tableSegments (freelist : FreeList) : List Segment :=
  (List.range freelist.cursor).map freelist.segments

theorem length_tableSegments (freelist : FreeList) :
    (tableSegments freelist).length = freelist.cursor := by
  simp [tableSegments]

/-- The frames of the table are those of its entries. -/
theorem free_eq_bind (freelist : FreeList) :
    Frames.free freelist =
      (tableSegments freelist : Multiset Segment).bind Frames.segmentFrames := by
  rw [tableSegments, ← Multiset.map_coe]
  simp [Frames.free, Frames.frames, Finset.sum, Multiset.bind, Multiset.join, Multiset.range,
    Function.comp_def]

/-- A segment is appended while the cursor is not negative. -/
theorem tableSegments_append (hcursor : intake.freelist.cursor < 128) :
    tableSegments (intake.append segment).freelist =
      tableSegments intake.freelist ++ [segment] := by
  have hindex : int8 intake.freelist.cursor = intake.freelist.cursor := int8_of_lt hcursor
  have hnext : (intake.freelist.cursor + 1) % 256 = intake.freelist.cursor + 1 :=
    Nat.mod_eq_of_lt (by omega)
  have hstore : intake.freelist.storeSegment (int8 intake.freelist.cursor) segment =
      intake.freelist.setSegment intake.freelist.cursor segment := by
    rw [FreeList.storeSegment, hindex, if_pos (by omega), Int.toNat_natCast]
  simp only [tableSegments, Intake.append, hstore, FreeList.setSegment, hnext, List.range_succ,
    List.map_append, List.map_cons, List.map_nil, Function.update_self]
  congr 1
  refine List.map_congr_left fun index hmem ↦ Function.update_of_ne ?_ ..
  exact (List.mem_range.mp hmem).ne

theorem tableSegments_foldl (entries : List MemmapEntry) (intake : Intake)
    (hroom : intake.freelist.cursor + (entries.filterMap segmentOf).length ≤ 128) :
    tableSegments (entries.foldl intakeEntry intake).freelist =
      tableSegments intake.freelist ++ entries.filterMap segmentOf := by
  induction entries generalizing intake with
  | nil => simp
  | cons entry entries ih =>
    rw [List.foldl_cons, intakeEntry_eq]
    cases hsegment : segmentOf entry with
    | none =>
      rw [List.filterMap_cons_none hsegment] at hroom ⊢
      exact ih intake hroom
    | some segment =>
      rw [List.filterMap_cons_some hsegment, List.length_cons] at hroom
      have hcursor : intake.freelist.cursor < 128 := by omega
      have happend : tableSegments (intake.append segment).freelist =
          tableSegments intake.freelist ++ [segment] := tableSegments_append hcursor
      have hnext : (intake.append segment).freelist.cursor = intake.freelist.cursor + 1 := by
        rw [← length_tableSegments, happend, List.length_append, length_tableSegments,
          List.length_singleton]
      rw [Option.elim_some, ih _ (by omega), happend, List.filterMap_cons_some hsegment,
        List.append_assoc, List.singleton_append]

/-- The table that the loop leaves. -/
theorem tableSegments_kmainIntake (hroom : (entries.filterMap segmentOf).length ≤ 128) :
    tableSegments (kmainIntake entries).freelist = entries.filterMap segmentOf :=
  tableSegments_foldl entries emptyIntake (by simpa [emptyIntake] using hroom)

theorem usable_of_segmentOf {entry : MemmapEntry} (h : segmentOf entry = some segment) :
    Usable entry := by
  dsimp only [segmentOf] at h
  split at h
  · next husable => exact husable.1
  · cases h

theorem length_filterMap_le :
    (entries.filterMap segmentOf).length ≤ (entries.filter (Usable ·)).length := by
  induction entries with
  | nil => exact le_rfl
  | cons entry entries ih =>
    cases hsegment : segmentOf entry with
    | none =>
      rw [List.filterMap_cons_none hsegment]
      exact ih.trans ((List.sublist_cons_self _ _).filter _).length_le
    | some segment =>
      rw [List.filterMap_cons_some hsegment, List.filter_cons_of_pos
        (by simpa using usable_of_segmentOf hsegment)]
      exact Nat.succ_le_succ ih

end Table

section Intake

variable {entries : List MemmapEntry}

/-- The table describes the whole frames of the usable entries, each once. -/
structure IntakeExact (entries : List MemmapEntry) (freelist : FreeList) : Prop where
  frames : ∀ frame, frame ∈ Frames.free freelist ↔
    ∃ entry ∈ entries, Usable entry ∧ WholeFrame entry frame
  once : (Frames.free freelist).Nodup
  segments : ∀ index < freelist.cursor,
    (freelist.segments index).base % 4096 = 0 ∧ 0 < (freelist.segments index).length
  bytes : ∀ frame ∈ Frames.free freelist, ∀ address, Extent.Holds ⟨frame, 4096⟩ address →
    ∃ entry ∈ entries, Usable entry ∧ (extent entry).Holds address

/-- The memory map: usable entries are at most 127, have no byte in common, and leave room for
rounding up. -/
structure MemoryMap (entries : List MemmapEntry) : Prop where
  count : (entries.filter (Usable ·)).length ≤ 127
  disjoint : (entries.filter (Usable ·)).Pairwise fun first second ↦
    ∀ address, (extent first).Holds address → ¬ (extent second).Holds address
  bound : ∀ entry ∈ entries, Usable entry → entry.base + entry.length + 4095 < 2 ^ 64

theorem MemoryMap.tableSegments_eq (h : MemoryMap entries) :
    tableSegments (kmainIntake entries).freelist = entries.filterMap segmentOf :=
  tableSegments_kmainIntake (length_filterMap_le.trans (h.count.trans (by norm_num)))

theorem MemoryMap.mem_free (h : MemoryMap entries) {frame : ℕ} :
    frame ∈ Frames.free (kmainIntake entries).freelist ↔
      ∃ entry ∈ entries, ∃ segment, segmentOf entry = some segment ∧
        frame ∈ Frames.segmentFrames segment := by
  rw [free_eq_bind, h.tableSegments_eq, Multiset.mem_bind]
  simp only [Multiset.mem_coe, List.mem_filterMap]
  tauto

/-- A byte belongs to one usable entry. -/
theorem MemoryMap.eq_of_holds (h : MemoryMap entries) {first second : MemmapEntry}
    (hfirst : first ∈ entries) (hsecond : second ∈ entries) (husable : Usable first)
    (husable' : Usable second) {address : ℕ} (hholds : (extent first).Holds address)
    (hholds' : (extent second).Holds address) : first = second := by
  by_contra hne
  have hsymmetric : Std.Symm fun first second : MemmapEntry ↦
      ∀ address, (extent first).Holds address → ¬ (extent second).Holds address :=
    ⟨fun _ _ hapart address hsecond hfirst ↦ hapart address hfirst hsecond⟩
  exact h.disjoint.forall (List.mem_filter.mpr ⟨hfirst, decide_eq_true husable⟩)
    (List.mem_filter.mpr ⟨hsecond, decide_eq_true husable'⟩) hne address hholds hholds'

theorem WholeFrame.holds {entry : MemmapEntry} {frame address : ℕ} (h : WholeFrame entry frame)
    (haddress : Extent.Holds ⟨frame, 4096⟩ address) : (extent entry).Holds address :=
  h.2.holds haddress

theorem WholeFrame.holds_start {entry : MemmapEntry} {frame : ℕ} (h : WholeFrame entry frame) :
    (extent entry).Holds frame :=
  h.holds ⟨le_rfl, Nat.lt_add_of_pos_right (by norm_num)⟩

/-- A segment stored for an entry that rounds exactly. -/
theorem MemoryMap.stored (h : MemoryMap entries)
    (hexact : ∀ entry ∈ entries, Usable entry → RoundsExactly entry) {entry : MemmapEntry}
    {segment : Segment} (hentry : entry ∈ entries) (hsegment : segmentOf entry = some segment) :
    segment.base % 4096 = 0 ∧ 0 < segment.length ∧
      ∀ frame ∈ Frames.segmentFrames segment, WholeFrame entry frame := by
  have husable := usable_of_segmentOf hsegment
  rcases segmentOf_exact husable (h.bound entry hentry husable) (hexact entry hentry husable) with
    ⟨hnone, -⟩ | ⟨segment', hsome, haligned, hlength, hframes⟩
  · rw [hnone] at hsegment
    cases hsegment
  · obtain rfl := Option.some.inj (hsegment.symm.trans hsome)
    exact ⟨haligned, hlength, fun frame ↦ (hframes frame).mp⟩

/-- With entries that round exactly, the frames described are the whole ones. -/
theorem MemoryMap.frames_iff (h : MemoryMap entries)
    (hexact : ∀ entry ∈ entries, Usable entry → RoundsExactly entry) {frame : ℕ} :
    frame ∈ Frames.free (kmainIntake entries).freelist ↔
      ∃ entry ∈ entries, Usable entry ∧ WholeFrame entry frame := by
  rw [h.mem_free]
  constructor
  · rintro ⟨entry, hentry, segment, hsegment, hframe⟩
    exact ⟨entry, hentry, usable_of_segmentOf hsegment,
      (h.stored hexact hentry hsegment).2.2 frame hframe⟩
  · rintro ⟨entry, hentry, husable, hwhole⟩
    rcases segmentOf_exact husable (h.bound entry hentry husable) (hexact entry hentry husable) with
      ⟨-, hnone⟩ | ⟨segment, hsome, -, -, hframes⟩
    · exact absurd hwhole (hnone frame)
    · exact ⟨entry, hentry, segment, hsome, (hframes frame).mpr hwhole⟩

theorem MemoryMap.exact (h : MemoryMap entries)
    (hexact : ∀ entry ∈ entries, Usable entry → RoundsExactly entry) :
    IntakeExact entries (kmainIntake entries).freelist where
  frames _ := h.frames_iff hexact
  once := by
    rw [free_eq_bind, h.tableSegments_eq, Multiset.nodup_bind]
    refine ⟨fun segment _ ↦ nodup_strided (by norm_num), ?_⟩
    have hsymmetric : Std.Symm (Function.onFun Disjoint Frames.segmentFrames) :=
      ⟨fun _ _ hdisjoint ↦ hdisjoint.symm⟩
    rw [Multiset.pairwise_coe_iff_pairwise, List.pairwise_filterMap]
    refine (List.pairwise_filter.mp h.disjoint).imp_of_mem
      fun {first second} hfirst hsecond hapart segment hsegment segment' hsegment' ↦ ?_
    have husable := usable_of_segmentOf hsegment
    have husable' := usable_of_segmentOf hsegment'
    refine Multiset.disjoint_left.mpr fun {frame} hframe hframe' ↦ ?_
    have hwhole := (h.stored hexact hfirst hsegment).2.2 frame hframe
    have hwhole' := (h.stored hexact hsecond hsegment').2.2 frame hframe'
    exact hapart (decide_eq_true husable) (decide_eq_true husable') frame hwhole.holds_start
      hwhole'.holds_start
  segments index hindex := by
    have hmem : (kmainIntake entries).freelist.segments index ∈
        tableSegments (kmainIntake entries).freelist :=
      List.mem_map_of_mem (List.mem_range.mpr hindex)
    rw [h.tableSegments_eq] at hmem
    obtain ⟨entry, hentry, hsegment⟩ := List.mem_filterMap.mp hmem
    obtain ⟨haligned, hlength, -⟩ := h.stored hexact hentry hsegment
    exact ⟨haligned, hlength⟩
  bytes frame hframe address haddress := by
    obtain ⟨entry, hentry, husable, hwhole⟩ := (h.frames_iff hexact).mp hframe
    exact ⟨entry, hentry, husable, hwhole.holds haddress⟩

/-- The intake is exact if and only if every usable entry rounds exactly. -/
theorem intake_exact_iff (h : MemoryMap entries) :
    IntakeExact entries (kmainIntake entries).freelist ↔
      ∀ entry ∈ entries, Usable entry → RoundsExactly entry := by
  refine ⟨fun hintake entry hentry husable ↦ ?_, h.exact⟩
  by_contra hexact
  obtain ⟨segment, frame, hsegment, hframe, hwrong⟩ :=
    segmentOf_inexact husable (h.bound entry hentry husable) hexact
  obtain ⟨other, hother, husable', hwhole⟩ :=
    (hintake.frames frame).mp (h.mem_free.mpr ⟨entry, hentry, segment, hsegment, hframe⟩)
  rcases hwrong with ⟨hholds, hnot⟩ | hend
  · obtain rfl := h.eq_of_holds hentry hother husable husable' hholds hwhole.holds_start
    exact hnot hwhole
  · have hbound := h.bound other hother husable'
    have hstop := hwhole.2.2
    simp only [extent, Extent.stop] at hstop
    omega

theorem memoryMap_singleton {entry : MemmapEntry}
    (hbound : entry.base + entry.length + 4095 < 2 ^ 64) : MemoryMap [entry] where
  count := (List.length_filter_le _ _).trans (by simp)
  disjoint := (List.pairwise_singleton _ _).filter _
  bound := by simpa using fun _ : Usable entry ↦ hbound

theorem intake_exact_onePage :
    IntakeExact [⟨0x1000, 0x1001, 0⟩] (kmainIntake [⟨0x1000, 0x1001, 0⟩]).freelist :=
  (intake_exact_iff (memoryMap_singleton (by norm_num))).mpr (by decide)

/-- An entry of a page and a half is taken for two pages. -/
theorem intake_not_exact : MemoryMap [⟨0x1000, 0x1800, 0⟩] ∧
    ¬ IntakeExact [⟨0x1000, 0x1800, 0⟩] (kmainIntake [⟨0x1000, 0x1800, 0⟩]).freelist := by
  have hmap : MemoryMap [⟨0x1000, 0x1800, 0⟩] := memoryMap_singleton (by norm_num)
  have hstored : segmentOf ⟨0x1000, 0x1800, 0⟩ = some ⟨0x1000, 2⟩ := by
    simp [segmentOf, Usable, alignUp, add, sub]
  have hframe : 0x2000 ∈ Frames.free (kmainIntake [⟨0x1000, 0x1800, 0⟩]).freelist :=
    hmap.mem_free.mpr ⟨_, List.mem_singleton_self _, _, hstored,
      Frames.mem_segmentFrames.mpr ⟨1, by norm_num, by norm_num⟩⟩
  refine ⟨hmap, fun hintake ↦ ?_⟩
  obtain ⟨entry, hentry, -, -, -, hstop⟩ := (hintake.frames _).mp hframe
  rw [List.mem_singleton.mp hentry] at hstop
  revert hstop
  decide

end Intake

end SideHOS.Boot
