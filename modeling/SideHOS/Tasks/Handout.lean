import SideHOS.Tasks.Executed

/-!
# Handing out the tasks of `kmain`

The holder of `task_lock` can always leave its critical section.  While the lock is free, every
task that was put into the queue is in the list, or a processor has taken it or is about to be
answered it.  The tasks of `kmain` were put in first, so that no idle task is handed out before
them.
-/

namespace SideHOS.Tasks

open Kernel Linked Sharing Sharing.Program Transition

variable {Proc : Type} [DecidableEq Proc]

variable {work : Workload Proc}
  {queue after : Config QueueAccess QueueState (Option Proc) QueueCall ℕ} {proc : Proc} {t : ℕ}

/-- The tasks of `kmain` come first, and `kmain` takes none. -/
structure Supply (work : Workload Proc) (order : List (Option Proc × QueueCall)) : Prop where
  first : work.ordinary <+: enqueued order
  kmain : (none, .idleTurn) ∉ order

omit [DecidableEq Proc] in
theorem Supply.concat {order : List (Option Proc × QueueCall)} (h : Supply work order)
    (call : QueueCall) : Supply work (order ++ [(some proc, call)]) where
  first := by
    rw [enqueued_append]
    exact h.first.trans (List.prefix_append _ _)
  kmain := by
    simpa using h.kmain

/-- The holder of `task_lock` can leave its critical section. -/
theorem QueueInvariant.exists_free (h : QueueInvariant work queue) :
    ∃ free, Relation.ReflTransGen (Internal execQueue queueBody) queue free ∧
      free.shared.taskLock = 0 := by
  obtain ⟨completed, answers, -, -, hserialized⟩ := serialized_of_reaches taskLockSemantics
    sectioned_queueBody (not_not.mpr rfl) h.reach
  have hinitial := QueueSerialized.prefix_order hserialized
  obtain ⟨state, hrun, -, -, -, ⟨hfree, -⟩ | ⟨-, holder, call, rest, horder, hholder, hguarded,
    hrest, -⟩⟩ := hserialized
  · exact ⟨queue, .refl, not_not.mp hfree⟩
  obtain ⟨cells, hqueued, hcells⟩ :=
    runAll_empty queued_emptyQueue hrun (h.fresh.of_initial hinitial)
  obtain ⟨hnodup, hnull, hbound⟩ := h.fresh
  rw [horder, enqueued_append] at hnodup hnull hbound
  have hcall : ∀ t ∈ enqueuedBy call, t ≠ 0 ∧ t < 2 ^ 64 ∧ t ∉ cells := by
    intro t ht
    have hlast : t ∈ enqueued [(holder, call)] := by simpa [enqueued] using ht
    refine ⟨hnull t (List.mem_append_right _ hlast), hbound t (List.mem_append_right _ hlast),
      fun hmem ↦ (List.nodup_append.mp hnodup).2.2 t ?_ t hlast rfl⟩
    rw [hcells]
    exact List.mem_append_right _ hmem
  obtain ⟨answer, after, left, hbody, hafter, -⟩ := run_queueBody hqueued call hcall
  exact ⟨_, internal_guarded queue hholder hguarded (hrest.trans hbody), hafter.lock⟩

omit [DecidableEq Proc] in
/-- What a turn of the idle loop took out is its answer. -/
theorem exists_turn_of_mem_dequeued {entries : List (Option Proc × QueueCall)} {answers : List ℕ}
    (ht : t ∈ dequeued entries answers) :
    ∃ (place : ℕ) (caller : Option Proc), entries[place]? = some (caller, .idleTurn) ∧
      answers[place]? = some t := by
  obtain ⟨⟨⟨caller, call⟩, answer⟩, hentry, hmem⟩ := List.mem_flatMap.mp ht
  obtain ⟨place, hplace⟩ := List.mem_iff_getElem?.mp hentry
  obtain ⟨hcall, hanswer⟩ := List.getElem?_zip_eq_some.mp hplace
  cases call with
  | taskInit built => cases hmem
  | idleTurn =>
    refine ⟨place, caller, hcall, hanswer.trans ?_⟩
    simp only [dequeuedBy] at hmem
    split at hmem
    · cases hmem
    · rw [List.mem_singleton.mp hmem]

/-- `task_init` answers nothing. -/
theorem yields_taskInitAppend (task : ℕ) : Yields (· = 0) (taskInitAppend task) := by
  apply yields_bind
  intro _
  apply yields_bind
  intro tasks
  split
  · exact yields_bind fun _ ↦ yields_bind fun _ ↦ rfl
  · apply yields_bind
    intro tasks
    apply yields_bind
    intro cur
    exact yields_bind fun _ ↦ yields_bind fun _ ↦ rfl

/-- What the queue and its users are like while the lock is free: `out` are the tasks taken out, and
`cells` those in the list. -/
structure Unlocked (work : Workload Proc)
    (queue : Config QueueAccess QueueState (Option Proc) QueueCall ℕ) (out cells : List ℕ) :
    Prop where
  queued : Queued queue.shared cells
  split : enqueued queue.order = out ++ cells
  waiting : ∀ proc call position rest, queue.thread proc = .running call position rest →
    (position = none ∧ rest = queueBody call) ∨
      ∃ answer, rest = .done answer ∧ (answer ≠ 0 → answer ∈ out)
  took : ∀ proc t, Took queue.returned proc t → t ≠ 0 → t ∈ out
  handed : Supply work queue.order → ∀ t ∈ out, ∃ proc, Took queue.returned proc t ∨
    ∃ position, queue.thread (some proc) = .running .idleTurn position (.done t)

theorem QueueInvariant.unlocked (h : QueueInvariant work queue)
    (hfree : queue.shared.taskLock = 0) : ∃ out cells, Unlocked work queue out cells := by
  obtain ⟨completed, answers, -, -, hserialized⟩ := serialized_of_reaches taskLockSemantics
    sectioned_queueBody (not_not.mpr rfl) h.reach
  have hplaced : Placed queue :=
    placed_of_reaches taskLockSemantics sectioned_queueBody (not_not.mpr rfl) h.reach
  obtain ⟨state, hrun, -, -, hreturned, ⟨-, rfl, rfl, houtside⟩ | ⟨hheld, -⟩⟩ := hserialized
  case inr => exact absurd hfree hheld
  obtain ⟨cells, hqueued, hcells⟩ := runAll_empty queued_emptyQueue hrun h.fresh
  have hdone (proc : Option Proc) (call : QueueCall) (position : Option ℕ) (rest : QueueCode ℕ)
      (hthread : queue.thread proc = .running call position rest) :
      (position = none ∧ rest = queueBody call) ∨ ∃ answer, rest = .done answer ∧
        Recorded queue.order answers proc call position answer := by
    have hout := houtside proc
    rw [hthread] at hout
    exact (outside_running sectioned_queueBody hout).imp_left fun hspin ↦ ⟨hspin.1, hspin.2.1⟩
  refine ⟨dequeued queue.order answers, cells, hqueued, hcells, ?_, ?_, ?_⟩
  · intro proc call position rest hthread
    apply (hdone proc call position rest hthread).imp_right
    rintro ⟨answer, hrest, place, -, hcall, hanswer⟩
    refine ⟨answer, hrest, fun hne ↦ ?_⟩
    cases call with
    | taskInit task =>
      obtain ⟨before, later, hbody⟩ := runAll_getElem? hrun hcall hanswer
      exact absurd ((yields_taskInitAppend task).of_run hbody) hne
    | idleTurn => exact mem_dequeued hcall hanswer hne
  · rintro proc t ⟨position, hentry⟩ ht
    obtain ⟨place, -, hcall, hanswer⟩ := hreturned _ hentry
    exact mem_dequeued hcall hanswer ht
  · intro hsupply t ht
    obtain ⟨place, caller, hcall, hanswer⟩ := exists_turn_of_mem_dequeued ht
    cases caller with
    | none => exact absurd (List.mem_of_getElem? hcall) hsupply.kmain
    | some proc =>
      refine ⟨proc, ?_⟩
      rcases hplaced.covered place (List.getElem?_eq_some_iff.mp hcall).1 with
        ⟨entry, hentry, hposition⟩ | ⟨caller, call, rest, hthread⟩
      · left
        obtain ⟨place', hplace', hcall', hanswer'⟩ := hreturned _ hentry
        obtain rfl : place = place' := Option.some.inj (hposition.symm.trans hplace')
        rw [hcall] at hcall'
        rw [hanswer] at hanswer'
        obtain ⟨caller, call, position, result⟩ := entry
        cases hcall'
        cases hanswer'
        exact ⟨position, hentry⟩
      · right
        have hcall' := (hplaced.running caller call place rest hthread).1
        rw [hcall] at hcall'
        cases hcall'
        rcases hdone _ _ _ _ hthread with ⟨hnone, -⟩ | ⟨answer, rfl, place', hplace', -, hanswer'⟩
        · cases hnone
        · obtain rfl : place = place' := Option.some.inj hplace'
          rw [hanswer] at hanswer'
          cases hanswer'
          exact ⟨_, hthread⟩

/-- While a task of `kmain` is in the list, only tasks of `kmain` have been taken out, and the next
one is a task of `kmain`. -/
theorem Unlocked.out_ordinary {out cells : List ℕ} (h : Unlocked work queue out cells)
    (hinvariant : QueueInvariant work queue) (hsupply : Supply work queue.order)
    (ht : t ∈ work.ordinary) (hcell : t ∈ cells) :
    ∃ next rest, cells = next :: rest ∧ out ++ [next] <+: work.ordinary := by
  cases cells with
  | nil => cases hcell
  | cons next rest =>
    refine ⟨next, rest, rfl, ?_⟩
    have hnodup := hinvariant.nodup
    obtain ⟨later, hlater⟩ := hsupply.first
    rw [h.split] at hnodup hlater
    have hall : out ++ [next] <+: work.ordinary ++ later := ⟨rest, by simp [hlater]⟩
    rcases List.prefix_or_prefix_of_prefix hall (List.prefix_append work.ordinary later) with
      hfirst | hfirst
    · exact hfirst
    · rcases List.prefix_concat_iff.mp hfirst with heq | hout
      · rw [heq]
      · exact absurd rfl ((List.nodup_append.mp hnodup).2.2 t (hout.subset ht) t hcell)

end SideHOS.Tasks
