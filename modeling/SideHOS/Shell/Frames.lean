import SideHOS.Shell.Blocks

/-!
# What `freeframe` and `freeframes` release

The variable `frame` holds the answer of the last `frame` or `frames` command, 0 after a failed
one, and keeps it when the frames are released.  A release is right exactly when nothing was
released since and the sizes agree; then the table stays sound, as long as no `free` passes on the
pointer of a block that got no frames.
-/

namespace SideHOS.Shell

open Kernel Machine Machine.Word64 Sharing Sharing.Program Serial Transition

/-- A call of `memory_free_frame` or `memory_free_frames` releases only frames that `frame` and
`frames` commands obtained and no command released since. -/
def ReleasesObtained (t : Taken ShellConfig ShellEvent) : Prop :=
  t.label.released ≤ t.before.obtained

/-- The last `frame` or `frames` command obtained the frames that a release command releases, and
nothing was released since: one frame or five for `freeframe`; for `freeframes` five, or one when
the next four are obtained as well.  A `freeframe` may also find the table full and no entry
adjacent, and fail. -/
def Matched (t : Taken ShellConfig ShellEvent) : Prop :=
  (t.label.line = textBytes "freeframe" → t.before.unreleased ≠ none ∨
    t.before.state.allocator.context.freelist.cursor = 255 ∧
      Frames.freeSlot t.before.state.allocator.context.freelist t.before.state.frame = none) ∧
  (t.label.line = textBytes "freeframes" → t.before.unreleased = some 5 ∨
    t.before.unreleased = some 1 ∧
      strided 4096 (t.before.state.frame + 4096) 4 ≤ t.before.obtained)

/-- A `free` does not pop the pointer that `kmalloc` answered when it got no frames. -/
def FreesBlock (hhdmOffset : ℕ) (t : Taken ShellConfig ShellEvent) : Prop :=
  t.label.line = textBytes "free" → t.before.state.pointerStore.cursor ≠ 0 →
    top t.before.state.pointerStore ≠ blockPointer hhdmOffset 0

/-- No frame is free twice, and every free frame was usable at the start. -/
def ListSound (start config : ShellConfig) : Prop :=
  (Frames.free config.state.allocator.context.freelist).Nodup ∧
    ∀ frame ∈ Frames.free config.state.allocator.context.freelist,
      frame ∈ Frames.free start.state.allocator.context.freelist

/-- What `unreleased` says about `frame`. -/
structure Remembers (config : ShellConfig) : Prop where
  released : config.unreleased = none → config.state.frame ∉ config.obtained
  held : ∀ count, config.unreleased = some count →
    strided 4096 config.state.frame count ≤ config.obtained ∧ (count = 1 ∨ count = 5)

section Remembers

variable {config next : ShellConfig} {after : ShellState} {count : ℕ} {ok : Bool}

theorem Remembers.mem_iff (h : Remembers config) :
    config.unreleased ≠ none ↔ config.state.frame ∈ config.obtained := by
  constructor
  · intro hne
    obtain ⟨count, hcount⟩ := Option.ne_none_iff_exists'.mp hne
    obtain ⟨hle, hcase⟩ := h.held count hcount
    exact Multiset.mem_of_le hle (mem_strided.mpr ⟨0, by omega, rfl⟩)
  · intro hmem hnone
    exact h.released hnone hmem

/-- Five frames from `frame` on are obtained if and only if the last command obtained them, or
obtained the first of them. -/
theorem Remembers.five_iff (h : Remembers config) :
    config.unreleased = some 5 ∨ config.unreleased = some 1 ∧
        strided 4096 (config.state.frame + 4096) 4 ≤ config.obtained ↔
      strided 4096 config.state.frame 5 ≤ config.obtained := by
  have hsplit : strided 4096 config.state.frame 5 =
      {config.state.frame} + strided 4096 (config.state.frame + 4096) 4 := strided_succ_start
  constructor
  · rintro (hfive | ⟨hone, hrest⟩)
    · exact (h.held 5 hfive).1
    · have hfirst := (h.held 1 hone).1
      rw [Multiset.le_iff_subset (nodup_strided (by norm_num)), hsplit]
      intro frame hframe
      rcases Multiset.mem_add.mp hframe with hframe | hframe
      · rw [strided_one] at hfirst
        exact Multiset.mem_of_le hfirst hframe
      · exact Multiset.mem_of_le hrest hframe
  · intro hle
    have hmem := Multiset.mem_of_le hle (mem_strided.mpr ⟨0, by norm_num, rfl⟩)
    obtain ⟨count, hcount⟩ := Option.ne_none_iff_exists'.mp (h.mem_iff.mpr hmem)
    rcases (h.held count hcount).2 with rfl | rfl
    · refine Or.inr ⟨hcount, le_trans ?_ hle⟩
      rw [hsplit]
      exact Multiset.le_add_left _ _
    · exact Or.inl hcount

/-- Lines that leave `frame` and the obtained frames alone. -/
theorem Remembers.congr (h : Remembers config) (hframe : next.state.frame = config.state.frame)
    (hobtained : next.obtained = config.obtained)
    (hunreleased : next.unreleased = config.unreleased) :
    Remembers next := by
  refine ⟨?_, ?_⟩
  · rw [hframe, hobtained, hunreleased]
    exact h.released
  · rw [hframe, hobtained, hunreleased]
    exact h.held

/-- An allocation is remembered. -/
theorem remembers_obtain (hzero : 0 ∉ config.obtained) (hcount : count = 1 ∨ count = 5) :
    Remembers (config.obtain after count) := by
  by_cases hframe : after.frame = 0
  · refine ⟨fun _ ↦ ?_, fun other hother ↦ ?_⟩
    · simpa only [ShellConfig.obtain, hframe, if_true, add_zero] using hzero
    · simp [ShellConfig.obtain, hframe] at hother
  · refine ⟨fun hnone ↦ ?_, fun other hother ↦ ?_⟩
    · simp [ShellConfig.obtain, hframe] at hnone
    · simp only [ShellConfig.obtain, if_neg hframe, Option.some.injEq] at hother ⊢
      subst hother
      exact ⟨Multiset.le_add_left _ _, hcount⟩

/-- A release is remembered. -/
theorem Remembers.release (h : Remembers config) (hnodup : config.obtained.Nodup)
    (hcount : 0 < count) (hframe : after.frame = config.state.frame) :
    Remembers (config.release after count ok) := by
  cases ok with
  | false => exact h.congr hframe (tsub_zero _) rfl
  | true =>
    refine ⟨fun _ hmem ↦ ?_, fun other hother ↦ ?_⟩
    · have hnot := (Multiset.mem_sub_of_nodup hnodup).mp hmem
      apply hnot.2
      change after.frame ∈ strided 4096 config.state.frame count
      rw [hframe]
      exact mem_strided.mpr ⟨0, hcount, rfl⟩
    · simp [ShellConfig.release] at hother

end Remembers

/-- The accounts are kept, and `frame` is remembered. -/
def Ledger (mapping : Heap.Mapping) (config : ShellConfig) : Prop :=
  Remembers config ∧ ∃ origins, ListsBlocks mapping config origins

section Step

variable {mapping : Heap.Mapping} {before after : ShellConfig} {event : ShellEvent}

/-- `memory_free_frames` never fails. -/
theorem memoryFreeFrames_ok {state next : AllocatorState} {physical count : ℕ} {ok : Bool}
    (hrun : run exec (memoryFreeFrames physical count) state = some (ok, next)) : ok = true := by
  unfold memoryFreeFrames at hrun
  simp only [run_loadCursor, run_storeBase, run_storeLength, run_storeCursor, run_pure] at hrun
  exact (Prod.mk.inj (Option.some.inj hrun)).1.symm

/-- Only the two release commands have to be matched. -/
theorem matched_iff_of_ne (hfreeframe : event.line ≠ textBytes "freeframe")
    (hfreeframes : event.line ≠ textBytes "freeframes") (hreleased : event.released = 0) :
    Matched ⟨before, event, after⟩ ↔ ReleasesObtained ⟨before, event, after⟩ := by
  refine iff_of_true ⟨fun h ↦ absurd h hfreeframe, fun h ↦ absurd h hfreeframes⟩ ?_
  change event.released ≤ before.obtained
  rw [hreleased]
  exact Multiset.zero_le _

/-- A release command releases obtained frames if and only if it is matched. -/
theorem ShellStep.matched_iff (h : Ledger mapping before)
    (hstep : ShellStep mapping.hhdmOffset before event after) :
    Matched ⟨before, event, after⟩ ↔ ReleasesObtained ⟨before, event, after⟩ := by
  obtain ⟨hremembers, origins, hlists⟩ := h
  cases hstep with
  | malloc hrun hcall => exact matched_iff_of_ne (by decide) (by decide) rfl
  | frame hrun => exact matched_iff_of_ne (by decide) (by decide) rfl
  | frames hrun => exact matched_iff_of_ne (by decide) (by decide) rfl
  | free hrun => exact matched_iff_of_ne (by decide) (by decide) rfl
  | @freeframe next ok hrun hcall =>
    obtain ⟨-, -, hfails⟩ := memoryFreeFrame_bytes hlists.backed.consistent.sound hcall
    have hother : textBytes "freeframe" ≠ textBytes "freeframes" := by decide
    simp only [Matched, ReleasesObtained, hother, forall_true_left, false_imp_iff, and_true,
      ← hfails, hremembers.mem_iff]
    cases ok with
    | false => simp [releasedFrames]
    | true => simp [releasedFrames]
  | @freeframes next ok hrun hcall =>
    obtain rfl := memoryFreeFrames_ok hcall
    have hother : textBytes "freeframes" ≠ textBytes "freeframe" := by decide
    simp only [Matched, ReleasesObtained, hother, forall_true_left, false_imp_iff, true_and,
      hremembers.five_iff, releasedFrames, if_true]
  | other hline hrun => exact matched_iff_of_ne (hline _ (by simp)) (hline _ (by simp)) rfl

/-- Obtained frames are real and different. -/
theorem ListsBlocks.obtained_facts {origins : List ℕ} (h : ListsBlocks mapping before origins) :
    0 ∉ before.obtained ∧ before.obtained.Nodup := by
  have hle : before.obtained ≤ mapping.frames :=
    (Multiset.le_add_right _ _).trans h.backed.held_le
  exact ⟨fun hzero ↦ mapping.frame_ne_zero 0 (Multiset.mem_of_le hle hzero) rfl,
    Multiset.nodup_of_le hle mapping.nodup⟩

/-- A matched line keeps the accounts. -/
theorem ShellStep.ledger (h : Ledger mapping before)
    (hstep : ShellStep mapping.hhdmOffset before event after)
    (hmatched : Matched ⟨before, event, after⟩)
    (hfree : FreesBlock mapping.hhdmOffset ⟨before, event, after⟩) : Ledger mapping after := by
  have hobtained := (hstep.matched_iff h).mp hmatched
  obtain ⟨hremembers, origins, hlists⟩ := h
  obtain ⟨hzero, hnodup⟩ := hlists.obtained_facts
  cases hstep with
  | malloc hrun hcall =>
    obtain ⟨frame, -, -, -, hframe, hnext⟩ := hlists.malloc hrun hcall
    exact ⟨hremembers.congr hframe rfl rfl, _, hnext _⟩
  | frame hrun => exact ⟨remembers_obtain hzero (Or.inl rfl), origins, hlists.frame hrun⟩
  | frames hrun => exact ⟨remembers_obtain hzero (Or.inr rfl), origins, hlists.frames hrun⟩
  | free hrun =>
    have hframe := (free_effect hrun).1
    by_cases hempty : before.state.pointerStore.cursor = 0
    · exact ⟨hremembers.congr hframe rfl rfl, origins, hlists.free_nothing hempty hrun⟩
    · obtain ⟨front, frame, rfl, htop, -⟩ := hlists.exists_top hempty
      have hne : frame ≠ 0 := by
        rintro rfl
        exact hfree rfl hempty htop
      exact ⟨hremembers.congr hframe rfl rfl, front, (hlists.free hne hrun).2⟩
  | @freeframe next ok hrun hcall =>
    have hframe : next.frame = before.state.frame := by
      rw [kshell_freeframe] at hrun
      exact (freeframeCommand_effect hrun).choose_spec.2.1
    exact ⟨hremembers.release hnodup one_pos hframe, origins,
      hlists.freeframe hobtained hrun hcall⟩
  | @freeframes next ok hrun hcall =>
    obtain rfl := memoryFreeFrames_ok hcall
    have hframe : next.frame = before.state.frame := by
      rw [kshell_freeframes] at hrun
      exact (freeframeCommand_effect hrun).choose_spec.2.1
    exact ⟨hremembers.release hnodup (by norm_num) hframe, origins,
      hlists.freeframes hobtained hrun hcall⟩
  | other hline hrun =>
    obtain ⟨hframe, hnext⟩ := hlists.other hline hrun
    exact ⟨hremembers.congr hframe rfl rfl, origins, hnext⟩

end Step

section Histories

variable {hhdmOffset : ℕ} {start final : ShellConfig} {taken : List (Taken ShellConfig ShellEvent)}

theorem ShellBooted.ledger (h : ShellBooted hhdmOffset start) : Ledger h.mapping start := by
  refine ⟨⟨fun _ ↦ ?_, fun count hcount ↦ ?_⟩, [], h.listsBlocks⟩
  · rw [h.obtained_eq]
    exact Multiset.notMem_zero _
  · rw [h.unreleased_eq] at hcount
    cases hcount

/-- The frames that are accounted for are a sound list. -/
theorem ShellBooted.listSound (h : ShellBooted hhdmOffset start) {config : ShellConfig}
    {origins : List ℕ} (hlists : ListsBlocks h.mapping config origins) :
    ListSound start config :=
  ⟨hlists.backed.consistent.sound.nodup, fun _ hframe ↦
    Multiset.mem_of_le hlists.backed.free_le hframe⟩

/-- Over a whole history: every release is of obtained frames if and only if every release
command is matched, and then the free list is sound after every line. -/
theorem release_commands_sound (hboot : ShellBooted hhdmOffset start)
    (hrun : Run (ShellStep hhdmOffset) start taken final)
    (hfree : ∀ t ∈ taken, FreesBlock hhdmOffset t) :
    ((∀ t ∈ taken, Matched t) ↔ ∀ t ∈ taken, ReleasesObtained t) ∧
      ((∀ t ∈ taken, Matched t) → ∀ t ∈ taken, ListSound start t.after) := by
  have hstep (before : ShellConfig) (event : ShellEvent) (after : ShellConfig)
      (hledger : Ledger hboot.mapping before) (hlast : ShellStep hhdmOffset before event after)
      (hblock : FreesBlock hhdmOffset ⟨before, event, after⟩)
      (hmatched : Matched ⟨before, event, after⟩) : Ledger hboot.mapping after :=
    hlast.ledger hledger hmatched hblock
  refine ⟨Run.forall_iff_of hboot.ledger hstep
    (fun _ _ _ hledger hlast _ ↦ hlast.matched_iff hledger) hrun hfree, fun hmatched t ht ↦ ?_⟩
  obtain ⟨earlier, hearlier, hlast, hsubset⟩ := hrun.of_mem ht
  have hbefore := hearlier.invariant (Ledger hboot.mapping)
    (fun t ↦ FreesBlock hhdmOffset t ∧ Matched t) hboot.ledger
    (fun _ _ _ hledger hlast hmeets ↦ hstep _ _ _ hledger hlast hmeets.1 hmeets.2)
    fun s hs ↦ ⟨hfree s (hsubset s hs), hmatched s (hsubset s hs)⟩
  obtain ⟨-, origins, hlists⟩ := hstep _ _ _ hbefore hlast (hfree t ht) (hmatched t ht)
  exact hboot.listSound hlists

/-- A `frame` line is answered. -/
theorem exists_frame {config : ShellConfig}
    (hsound : Frames.Sound config.state.allocator.context.freelist) :
    ∃ after, run execShell (kshell hhdmOffset (textBytes "frame")) config.state =
      some ((), after) := by
  obtain ⟨frame, allocator, hcall, -⟩ := Frames.memoryAllocateFrame_spec hhdmOffset hsound
  obtain ⟨output, hanswered⟩ := run_frameCommand hcall
  rw [← kshell_frame] at hanswered
  exact ⟨_, hanswered⟩

/-- A `freeframe` line is answered as its call is. -/
theorem exists_freeframe {config : ShellConfig} {ok : Bool} {allocator : AllocatorState}
    (hcall : run exec (memoryFreeFrame config.state.frame) config.state.allocator =
      some (ok, allocator)) :
    ∃ after, after.allocator = allocator ∧ ShellStep hhdmOffset config
      ⟨textBytes "freeframe", releasedFrames config.state.frame 1 ok⟩
      (config.release after 1 ok) := by
  obtain ⟨output, hanswered⟩ := run_freeframeCommand hcall
  rw [← @kshell_freeframe hhdmOffset] at hanswered
  exact ⟨_, rfl, ShellStep.freeframe hanswered hcall⟩

theorem release_commands_sound_frame : ∃ taken final,
    taken.map (fun t ↦ t.label.line) = [textBytes "frame", textBytes "freeframe"] ∧
      Run (ShellStep 0) (startShell 2) taken final ∧
      ((∀ t ∈ taken, Matched t) ↔ ∀ t ∈ taken, ReleasesObtained t) ∧
      ((∀ t ∈ taken, Matched t) → ∀ t ∈ taken, ListSound (startShell 2) t.after) := by
  have hbooted : ShellBooted 0 (startShell 2) := shellBooted_startShell (by norm_num)
  obtain ⟨after, hanswered⟩ := @exists_frame 0 (startShell 2) hbooted.sound
  have hsound : Frames.Sound after.allocator.context.freelist :=
    (hbooted.listsBlocks.frame hanswered).backed.consistent.sound
  obtain ⟨final, -, hfreeframe⟩ := @exists_freeframe 0 ((startShell 2).obtain after 1) _ _
    (Frames.run_memoryFreeFrame hsound)
  have hrun := Run.snoc _ (Run.snoc _ Run.nil (ShellStep.frame hanswered)) hfreeframe
  have hnames : textBytes "frame" ≠ textBytes "free" ∧
      textBytes "freeframe" ≠ textBytes "free" := by decide
  refine ⟨_, _, rfl, hrun, release_commands_sound hbooted hrun ?_⟩
  rw [List.forall_mem_append, List.nil_append, List.forall_mem_singleton,
    List.forall_mem_singleton]
  exact ⟨fun hline ↦ absurd hline hnames.1, fun hline ↦ absurd hline hnames.2⟩

/-- A `freeframe` before any `frame` releases frame 0, which then joins the first entry. -/
theorem freeframe_releases_zero : ∃ taken final,
    taken.map (fun t ↦ t.label.line) = [textBytes "freeframe"] ∧
      Run (ShellStep 0) (startShell 2) taken final ∧
      ¬ (∀ t ∈ taken, ReleasesObtained t) ∧ ¬ ∀ t ∈ taken, ListSound (startShell 2) t.after := by
  have hsound := @sound_startShell 2 (by norm_num)
  have hslot : Frames.freeSlot (startShell 2).state.allocator.context.freelist 0 = some 0 := by
    decide
  have hreturned : Frames.returned ⟨4096, 2⟩ 0 = ⟨0, 3⟩ := by
    rw [Frames.returned, if_neg (by decide)]
  have hcall : run exec (memoryFreeFrame 0) (startShell 2).state.allocator =
      some (true, Frames.withFreelist (startShell 2).state.allocator
        ((startShell 2).state.allocator.context.freelist.setSegment 0 ⟨0, 3⟩)) := by
    have hfreed := @Frames.run_memoryFreeFrame _ 0 hsound
    rw [hslot, Option.elim_some] at hfreed
    rw [← hreturned]
    exact hfreed
  obtain ⟨after, hallocator, hstep⟩ := @exists_freeframe 0 (startShell 2) _ _ hcall
  refine ⟨_, _, rfl, Run.snoc _ Run.nil hstep, fun hreleases ↦ ?_, fun hlists ↦ ?_⟩
  · have hle : releasedFrames 0 1 true ≤ 0 := hreleases _ (List.mem_singleton_self _)
    rw [releasedFrames, if_pos rfl, strided_one, Multiset.singleton_le] at hle
    exact Multiset.notMem_zero 0 hle
  · have hlist := (hlists _ (List.mem_singleton_self _)).2 0
    have hfree : 0 ∈ Frames.free after.allocator.context.freelist := by
      rw [hallocator]
      exact Frames.mem_frames.mpr ⟨0, one_pos, Frames.mem_segmentFrames.mpr ⟨0, by decide, rfl⟩⟩
    exact hsound.zero_not_mem (hlist hfree)

end Histories

end SideHOS.Shell
