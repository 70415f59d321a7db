import SideHOS.Kernel.Tasks
import SideHOS.Linked.Path
import SideHOS.Sharing.Interleaving

/-!
# First in, first out

Any number of processors append tasks with `task_init` and take them in `idle_task_entry`, and
their single accesses to the queue interleave in any order.  Run alone, appending a fresh task
extends the list at `tasks` by it, and a turn of the idle loop removes the first task.  Since every
use of the queue is one critical section of `task_lock`, the interleaved uses do what they do when
they are run in the order they took the lock, so that tasks leave in the order in which they came.
-/

namespace SideHOS.Tasks

open Kernel Linked Sharing Sharing.Program

def TaskLockHeld (state : QueueState) : Prop := state.taskLock ≠ 0

theorem taskLockSemantics : LockSemantics execQueue .lockAcquire .lockRelease TaskLockHeld where
  acquire_free state hfree := by
    have hzero : state.taskLock = 0 := not_not.mp hfree
    simp [execQueue, hzero, TaskLockHeld]
  acquire_held state hheld := if_neg hheld
  release_free state := by simp [execQueue, TaskLockHeld]
  other operation hacquire hrelease state := by
    cases operation <;> first | exact Iff.rfl | contradiction

abbrev TaskLockFree {α : Type} (code : QueueCode α) : Prop :=
  LockFree .lockAcquire .lockRelease code

theorem lockFree_loadTaskNext (task : ℕ) : TaskLockFree (loadTaskNext task) := by
  unfold loadTaskNext
  split
  · trivial
  · exact lockFree_perform nofun nofun

theorem lockFree_storeTaskNext (task value : ℕ) : TaskLockFree (storeTaskNext task value) := by
  unfold storeTaskNext
  split
  · trivial
  · exact lockFree_perform nofun nofun

theorem lockFree_lastTask (fuel cur : ℕ) : TaskLockFree (lastTask fuel cur) := by
  induction fuel generalizing cur with
  | zero => trivial
  | succ fuel ih =>
    apply lockFree_bind (lockFree_loadTaskNext cur)
    intro next
    split
    · exact lockFree_pure cur
    · exact lockFree_bind (lockFree_loadTaskNext cur) fun next ↦ ih next

/-- Every path through a use of the queue takes the lock first and releases it once, last. -/
theorem sectioned_queueBody (call : QueueCall) :
    Sectioned .lockAcquire .lockRelease (queueBody call) := by
  have hload : TaskLockFree (perform .loadTasks) := lockFree_perform nofun nofun
  have hstore (task : ℕ) : TaskLockFree (perform (.storeTasks task)) :=
    lockFree_perform nofun nofun
  cases call with
  | taskInit t =>
    refine ⟨_, rfl, ?_⟩
    apply guarded_bind (lockFree_storeTaskNext t 0)
    intro _
    apply guarded_bind hload
    intro tasks
    split
    · exact guarded_bind (hstore t) fun _ ↦ guarded_release 0
    · apply guarded_bind hload
      intro tasks
      apply guarded_bind (lockFree_lastTask walkFuel tasks)
      intro cur
      exact guarded_bind (lockFree_storeTaskNext cur t) fun _ ↦ guarded_release 0
  | idleTurn =>
    refine ⟨_, rfl, ?_⟩
    apply guarded_bind hload
    intro tasks
    split
    · exact guarded_release 0
    · apply guarded_bind hload
      intro t
      apply guarded_bind hload
      intro tasks
      apply guarded_bind (lockFree_loadTaskNext tasks)
      intro next
      exact guarded_bind (hstore next) fun _ ↦ guarded_release t

/-! ## One use of the queue -/

/-- `task_lock` is free and `tasks` is a null-terminated list of the given tasks. -/
structure Queued (state : QueueState) (cells : List ℕ) : Prop where
  chain : Chain 0 state.next state.tasks cells
  bound : ∀ cell ∈ cells, cell < 2 ^ 64
  lock : state.taskLock = 0

variable {state : QueueState} {cells : List ℕ}

/-- The walk of `task_init` stops at the last task. -/
theorem run_lastTask {cur last fuel : ℕ} {front : List ℕ}
    (h : Chain 0 state.next cur (front ++ [last])) (hfuel : front.length < fuel) :
    run execQueue (lastTask fuel cur) state = some (last, state) := by
  induction front generalizing cur fuel with
  | nil =>
    obtain ⟨rfl, hcur, hpath⟩ := h
    have hnext : state.next cur = 0 := hpath
    cases fuel with
    | zero => exact absurd hfuel (Nat.not_lt_zero _)
    | succ fuel =>
      rw [lastTask, run_loadTaskNext state cur _ hcur, if_pos hnext]
      rfl
  | cons cell front ih =>
    obtain ⟨rfl, hcur, hrest⟩ := h
    cases fuel with
    | zero => exact absurd hfuel (Nat.not_lt_zero _)
    | succ fuel =>
      have hnext : state.next cur ≠ 0 := by
        intro hnull
        rw [hnull] at hrest
        exact absurd (chain_null.mp hrest) (by simp)
      rw [lastTask, run_loadTaskNext state cur _ hcur, if_neg hnext,
        run_loadTaskNext state cur _ hcur]
      exact ih hrest (Nat.lt_of_succ_lt_succ hfuel)

/-- `task_init` appends its task. -/
theorem run_taskInitAppend {t : ℕ} (h : Queued state cells) (hnull : t ≠ 0) (hword : t < 2 ^ 64)
    (hfresh : t ∉ cells) :
    ∃ after, run execQueue (taskInitAppend t) state = some (0, after) ∧
      Queued after (cells ++ [t]) := by
  have hbound : ∀ cell ∈ cells ++ [t], cell < 2 ^ 64 := by
    intro cell hcell
    rcases List.mem_append.mp hcell with hcell | hcell
    · exact h.bound cell hcell
    · rwa [List.mem_singleton.mp hcell]
  rw [taskInitAppend, run_taskLockAcquire _ _ h.lock, run_storeTaskNext _ _ _ _ hnull,
    run_loadTasks]
  dsimp only
  rcases List.eq_nil_or_concat cells with rfl | ⟨front, last, rfl⟩
  · have hempty : state.tasks = 0 := h.chain
    rw [if_pos hempty]
    refine ⟨_, rfl, ?_, hbound, rfl⟩
    exact ⟨rfl, hnull, Function.update_self t 0 state.next⟩
  · rw [List.concat_eq_append] at h hfresh hbound ⊢
    have hwalk : Chain 0 (Function.update state.next t 0) state.tasks (front ++ [last]) := by
      apply Path.congr h.chain
      intro cell hcell
      apply Function.update_of_ne
      rintro rfl
      exact hfresh hcell
    have hlength : front.length < walkFuel := by
      have hshort := Chain.length_lt h.chain h.bound (Nat.two_pow_pos 64)
      rw [List.length_append, ← walkFuel] at hshort
      exact Nat.lt_of_succ_lt hshort
    have hhead : state.tasks ≠ 0 := by
      intro hzero
      rw [hzero] at hwalk
      exact absurd (chain_null.mp hwalk) (by simp)
    have hlast : last ≠ 0 := Path.ne_null h.chain (by simp)
    have hne : last ≠ t := fun heq ↦ hfresh (by simp [heq])
    have hchain : Chain 0 (Function.update (Function.update state.next t 0) last t) state.tasks
        (front ++ [last] ++ [t]) := by
      have hend : Function.update (Function.update state.next t 0) last t t = 0 := by
        rw [Function.update_of_ne hne.symm, Function.update_self]
      refine path_concat.mpr ⟨Path.redirect hwalk ?_ (Function.update_self ..), hnull, hend⟩
      intro cell hcell
      have hnodup := Chain.nodup h.chain
      rw [List.nodup_append] at hnodup
      exact Function.update_of_ne (hnodup.2.2 cell hcell last (by simp)) _ _
    rw [if_neg hhead, run_loadTasks, run_bind_of_eq (run_lastTask hwalk hlength),
      run_storeTaskNext _ _ _ _ hlast]
    exact ⟨_, rfl, hchain, hbound, rfl⟩

/-- A turn of the idle loop answers `NULL` on an empty queue. -/
theorem run_idleTaskEntryTurn_nil (h : Queued state []) :
    ∃ after, run execQueue idleTaskEntryTurn state = some (0, after) ∧ Queued after [] := by
  have hempty : state.tasks = 0 := h.chain
  rw [idleTaskEntryTurn, run_taskLockAcquire _ _ h.lock, run_loadTasks, if_pos hempty]
  exact ⟨_, rfl, hempty, h.bound, rfl⟩

/-- A turn of the idle loop takes the first task of a queue that is not empty. -/
theorem run_idleTaskEntryTurn_cons {t : ℕ} (h : Queued state (t :: cells)) :
    ∃ after, run execQueue idleTaskEntryTurn state = some (t, after) ∧ Queued after cells := by
  obtain ⟨⟨hhead, hne, hrest⟩, hbound, hlock⟩ := h
  have htasks : state.tasks ≠ 0 := by
    rw [hhead]
    exact hne
  rw [idleTaskEntryTurn, run_taskLockAcquire _ _ hlock, run_loadTasks, if_neg htasks,
    run_loadTasks, run_loadTasks, run_loadTaskNext _ _ _ htasks, run_storeTasks]
  dsimp only
  rw [hhead]
  exact ⟨_, rfl, hrest, fun cell hcell ↦ hbound cell (List.mem_cons_of_mem _ hcell), rfl⟩

/-! ## Uses of the queue one after another -/

variable {Proc : Type}

def enqueuedBy : QueueCall → List ℕ
  | .taskInit t => [t]
  | .idleTurn => []

/-- The tasks that a use of the queue takes out when it gives this answer. -/
def dequeuedBy : QueueCall → ℕ → List ℕ
  | .taskInit _, _ => []
  | .idleTurn, answer => if answer = 0 then [] else [answer]

def enqueued (entries : List (Proc × QueueCall)) : List ℕ :=
  entries.flatMap fun entry ↦ enqueuedBy entry.2

/-- The tasks taken out by these uses with these answers, in order. -/
def dequeued (entries : List (Proc × QueueCall)) (answers : List ℕ) : List ℕ :=
  (entries.zip answers).flatMap fun entry ↦ dequeuedBy entry.1.2 entry.2

/-- The tasks put in are distinct, and none of them is `NULL`. -/
structure FreshTasks (entries : List (Proc × QueueCall)) : Prop where
  nodup : (enqueued entries).Nodup
  ne_null : ∀ t ∈ enqueued entries, t ≠ 0
  bound : ∀ t ∈ enqueued entries, t < 2 ^ 64

/-- A use of the queue ends, and what it takes out and what it leaves is, in order, what was there
and what it puts in. -/
theorem run_queueBody (h : Queued state cells) (call : QueueCall)
    (hfresh : ∀ t ∈ enqueuedBy call, t ≠ 0 ∧ t < 2 ^ 64 ∧ t ∉ cells) :
    ∃ answer after rest, run execQueue (queueBody call) state = some (answer, after) ∧
      Queued after rest ∧
      cells ++ enqueuedBy call = dequeuedBy call answer ++ rest := by
  cases call with
  | taskInit t =>
    obtain ⟨hnull, hword, hcells⟩ := hfresh t (List.mem_singleton_self t)
    obtain ⟨after, hrun, hqueued⟩ := run_taskInitAppend h hnull hword hcells
    exact ⟨0, after, cells ++ [t], hrun, hqueued, rfl⟩
  | idleTurn =>
    cases cells with
    | nil =>
      obtain ⟨after, hrun, hqueued⟩ := run_idleTaskEntryTurn_nil h
      exact ⟨0, after, [], hrun, hqueued, rfl⟩
    | cons t cells =>
      have ht : t ≠ 0 := h.chain.2.1
      obtain ⟨after, hrun, hqueued⟩ := run_idleTaskEntryTurn_cons h
      refine ⟨t, after, cells, hrun, hqueued, ?_⟩
      simp [enqueuedBy, dequeuedBy, ht]

/-- Uses of the queue made one after another keep the tasks in order. -/
theorem runAll_queueBody {entries : List (Proc × QueueCall)} {answers : List ℕ}
    {after : QueueState} (h : Queued state cells)
    (hrun : runAll execQueue queueBody entries state = some (answers, after))
    (hnodup : (cells ++ enqueued entries).Nodup)
    (hfresh : ∀ t ∈ enqueued entries, t ≠ 0 ∧ t < 2 ^ 64) :
    ∃ rest, Queued after rest ∧ cells ++ enqueued entries = dequeued entries answers ++ rest := by
  induction entries generalizing state cells answers with
  | nil =>
    obtain ⟨rfl, rfl⟩ := Prod.mk.inj (Option.some.inj hrun)
    exact ⟨cells, h, by simp [enqueued, dequeued]⟩
  | cons entry entries ih =>
    have hsplit : enqueued (entry :: entries) =
        enqueuedBy entry.2 ++ enqueued entries := List.flatMap_cons
    rw [hsplit] at hnodup hfresh ⊢
    obtain ⟨first, hfirst, hrest⟩ := Option.bind_eq_some_iff.mp hrun
    obtain ⟨later, hlater, hpair⟩ := Option.map_eq_some_iff.mp hrest
    obtain ⟨rfl, rfl⟩ := Prod.mk.inj hpair
    have hcall : ∀ t ∈ enqueuedBy entry.2, t ≠ 0 ∧ t < 2 ^ 64 ∧ t ∉ cells := by
      intro t ht
      obtain ⟨hnull, hword⟩ := hfresh t (List.mem_append_left _ ht)
      exact ⟨hnull, hword, fun hmem ↦
        (List.nodup_append.mp hnodup).2.2 t hmem t (List.mem_append_left _ ht) rfl⟩
    obtain ⟨answer, middle, kept, hbody, hqueued, horder⟩ := run_queueBody h entry.2 hcall
    rw [hbody] at hfirst
    obtain rfl := Option.some.inj hfirst
    have hkept : cells ++ (enqueuedBy entry.2 ++ enqueued entries) =
        dequeuedBy entry.2 answer ++ (kept ++ enqueued entries) := by
      rw [← List.append_assoc, horder, List.append_assoc]
    rw [hkept] at hnodup
    obtain ⟨rest, hafter, hrest⟩ := ih hqueued hlater
      (List.Nodup.of_append_right hnodup) fun t ht ↦ hfresh t (List.mem_append_right _ ht)
    refine ⟨rest, hafter, ?_⟩
    rw [hkept, hrest, ← List.append_assoc]
    simp [dequeued]

theorem enqueued_append (entries later : List (Proc × QueueCall)) :
    enqueued (entries ++ later) = enqueued entries ++ enqueued later := List.flatMap_append

/-- Fewer uses put in fewer tasks. -/
theorem FreshTasks.of_initial {entries later : List (Proc × QueueCall)} (h : FreshTasks later)
    (hinitial : entries <+: later) : FreshTasks entries := by
  obtain ⟨rest, rfl⟩ := hinitial
  obtain ⟨hnodup, hnull, hbound⟩ := h
  rw [enqueued_append] at hnodup hnull hbound
  exact ⟨hnodup.of_append_left, fun t ht ↦ hnull t (List.mem_append_left _ ht),
    fun t ht ↦ hbound t (List.mem_append_left _ ht)⟩

/-- Uses of an empty queue made one after another take the tasks out in the order in which they
are put in, and leave the rest. -/
theorem runAll_empty {entries : List (Proc × QueueCall)} {answers : List ℕ} {after : QueueState}
    (h : Queued state []) (hrun : runAll execQueue queueBody entries state = some (answers, after))
    (hfresh : FreshTasks entries) :
    ∃ rest, Queued after rest ∧ enqueued entries = dequeued entries answers ++ rest :=
  runAll_queueBody h hrun hfresh.nodup fun t ht ↦ ⟨hfresh.ne_null t ht, hfresh.bound t ht⟩

/-- What an answered turn of the idle loop takes out. -/
theorem mem_dequeued {entries : List (Proc × QueueCall)} {answers : List ℕ} {index t : ℕ}
    {proc : Proc} (hentry : entries[index]? = some (proc, .idleTurn))
    (hanswer : answers[index]? = some t) (ht : t ≠ 0) : t ∈ dequeued entries answers := by
  refine List.mem_flatMap.mpr ⟨((proc, .idleTurn), t), ?_, by simp [dequeuedBy, ht]⟩
  apply List.mem_of_getElem? (i := index)
  rw [List.getElem?_zip_eq_some]
  exact ⟨hentry, hanswer⟩

/-- Two turns do not take out the same task. -/
theorem index_unique {entries : List (Proc × QueueCall)} {answers : List ℕ} {i j t : ℕ}
    {first second : Proc} (hnodup : (dequeued entries answers).Nodup) (ht : t ≠ 0)
    (hfirst : entries[i]? = some (first, .idleTurn)) (hfirstAnswer : answers[i]? = some t)
    (hsecond : entries[j]? = some (second, .idleTurn)) (hsecondAnswer : answers[j]? = some t) :
    i = j := by
  have hi : (entries.zip answers)[i]? = some ((first, .idleTurn), t) :=
    List.getElem?_zip_eq_some.mpr ⟨hfirst, hfirstAnswer⟩
  have hj : (entries.zip answers)[j]? = some ((second, .idleTurn), t) :=
    List.getElem?_zip_eq_some.mpr ⟨hsecond, hsecondAnswer⟩
  obtain ⟨hilt, hi⟩ := List.getElem?_eq_some_iff.mp hi
  obtain ⟨hjlt, hj⟩ := List.getElem?_eq_some_iff.mp hj
  have hpairwise := List.pairwise_iff_getElem.mp (List.nodup_flatMap.mp hnodup).2
  have happart (a b : ℕ) (ha : a < (entries.zip answers).length)
      (hb : b < (entries.zip answers).length) (hab : a < b)
      (hta : t ∈ dequeuedBy (entries.zip answers)[a].1.2 (entries.zip answers)[a].2)
      (htb : t ∈ dequeuedBy (entries.zip answers)[b].1.2 (entries.zip answers)[b].2) : False :=
    List.disjoint_left.mp (hpairwise a b ha hb hab) hta htb
  have hti : t ∈ dequeuedBy (entries.zip answers)[i].1.2 (entries.zip answers)[i].2 := by
    simp [hi, dequeuedBy, ht]
  have htj : t ∈ dequeuedBy (entries.zip answers)[j].1.2 (entries.zip answers)[j].2 := by
    simp [hj, dequeuedBy, ht]
  rcases Nat.lt_trichotomy i j with hlt | heq | hlt
  · exact (happart i j hilt hjlt hlt hti htj).elim
  · exact heq
  · exact (happart j i hjlt hilt hlt htj hti).elim

/-! ## Any interleaving -/

section Interleaving

variable [DecidableEq Proc] {start : QueueState}
  {config : Config QueueAccess QueueState Proc QueueCall ℕ}
  {completed : List (Proc × QueueCall)} {answers : List ℕ}

/-- The interleaving is serialized by the uses whose critical sections have ended. -/
abbrev QueueSerialized (start : QueueState) (completed : List (Proc × QueueCall))
    (answers : List ℕ) (config : Config QueueAccess QueueState Proc QueueCall ℕ) : Prop :=
  SerializedAs execQueue queueBody .lockAcquire .lockRelease TaskLockHeld start completed answers
    config

/-- What the uses of the queue have put in and taken out: the uses whose critical sections have
ended come first in the order of acquisition and account for every answer given; the tasks taken
out are, in order, the first of those put in, each once; and while `task_lock` is free the others
are the null-terminated list at `tasks`. -/
def QueueHistory (config : Config QueueAccess QueueState Proc QueueCall ℕ)
    (completed : List (Proc × QueueCall)) (answers : List ℕ) : Prop :=
  completed <+: config.order ∧
    (∀ entry ∈ config.returned,
      Recorded completed answers entry.proc entry.call entry.position entry.result) ∧
    (∀ proc call position answer, config.thread proc = .running call position (.done answer) →
      Recorded completed answers proc call position answer) ∧
    dequeued completed answers <+: enqueued completed ∧
    (dequeued completed answers).Nodup ∧
    (config.shared.taskLock = 0 → completed = config.order ∧
      ∃ cells, Chain 0 config.shared.next config.shared.tasks cells ∧
        enqueued config.order = dequeued completed answers ++ cells)

omit [DecidableEq Proc] in
theorem QueueSerialized.prefix_order (h : QueueSerialized start completed answers config) :
    completed <+: config.order := by
  obtain ⟨_, -, -, -, -, ⟨-, horder, -⟩ | ⟨-, holder, call, rest, horder, -⟩⟩ := h
  · rw [horder]
  · rw [horder]
    exact List.prefix_append _ _

omit [DecidableEq Proc] in
/-- A use that is past its critical section answers what the serial run answers. -/
theorem QueueSerialized.recorded_of_done {proc : Proc} {call : QueueCall} {position : Option ℕ}
    {answer : ℕ} (h : QueueSerialized start completed answers config)
    (hdone : config.thread proc = .running call position (.done answer)) :
    Recorded completed answers proc call position answer := by
  have hrecord (hout : Outside queueBody completed answers proc (config.thread proc)) :
      Recorded completed answers proc call position answer := by
    rw [hdone] at hout
    rcases outside_running sectioned_queueBody hout with ⟨-, -, next, hawait, -⟩ |
      ⟨value, hvalue, hrecorded⟩
    · cases hawait
    · cases hvalue
      exact hrecorded
  obtain ⟨_, -, -, -, -, ⟨-, -, -, houtside⟩ |
    ⟨-, holder, holderCall, rest, -, hholder, hguarded, -, houtside⟩⟩ := h
  · exact hrecord (houtside proc)
  · apply hrecord
    apply houtside proc
    rintro rfl
    rw [hdone] at hholder
    obtain ⟨-, -, rfl⟩ := Thread.running.inj hholder
    exact hguarded

omit [DecidableEq Proc] in
theorem QueueSerialized.history (h : QueueSerialized start completed answers config)
    (hstart : Queued start []) (hfresh : FreshTasks config.order) :
    QueueHistory config completed answers := by
  have hinitial := h.prefix_order
  have hcompleted := hfresh.of_initial hinitial
  have hdone (proc : Proc) (call : QueueCall) (position : Option ℕ) (answer : ℕ)
      (hthread : config.thread proc = .running call position (.done answer)) :=
    h.recorded_of_done hthread
  obtain ⟨state, hrun, -, -, hreturned, hcase⟩ := h
  obtain ⟨cells, hqueued, horder⟩ := runAll_empty hstart hrun hcompleted
  have hnodup := hcompleted.nodup
  rw [horder] at hnodup
  refine ⟨hinitial, hreturned, hdone, ⟨cells, horder.symm⟩, hnodup.of_append_left, ?_⟩
  intro hfree
  rcases hcase with ⟨-, rfl, rfl, -⟩ | ⟨hheld, -⟩
  · exact ⟨rfl, cells, hqueued.chain, horder⟩
  · exact absurd hfree hheld

omit [DecidableEq Proc] in
/-- No use of the queue goes through a null pointer or walks for ever. -/
theorem QueueSerialized.not_diverge {proc : Proc} {call : QueueCall} {position : Option ℕ}
    (h : QueueSerialized start completed answers config) (hstart : Queued start [])
    (hfresh : FreshTasks config.order) :
    config.thread proc ≠ .running call position .diverge := by
  intro hdiverge
  have hinitial := h.prefix_order
  obtain ⟨state, hrun, -, -, -, hcase⟩ := h
  have houtside : ¬ Outside queueBody completed answers proc (config.thread proc) := by
    intro hout
    rw [hdiverge] at hout
    rcases outside_running sectioned_queueBody hout with ⟨-, -, next, hawait, -⟩ |
      ⟨value, hvalue, -⟩
    · cases hawait
    · cases hvalue
  rcases hcase with ⟨-, -, -, hothers⟩ | ⟨-, holder, holderCall, rest, horder, hholder, -, hrest,
    hothers⟩
  · exact houtside (hothers proc)
  obtain rfl : proc = holder := by
    by_contra hne
    exact houtside (hothers proc hne)
  rw [hdiverge] at hholder
  obtain ⟨rfl, -, rfl⟩ := Thread.running.inj hholder
  obtain ⟨cells, hqueued, hcells⟩ := runAll_empty hstart hrun (hfresh.of_initial hinitial)
  obtain ⟨hnodup, hnull, hbound⟩ := hfresh
  rw [horder, enqueued_append] at hnodup hnull hbound
  have hcall : ∀ t ∈ enqueuedBy call, t ≠ 0 ∧ t < 2 ^ 64 ∧ t ∉ cells := by
    intro t ht
    have hlast : t ∈ enqueued [(proc, call)] := by simpa [enqueued] using ht
    refine ⟨hnull t (List.mem_append_right _ hlast), hbound t (List.mem_append_right _ hlast), ?_⟩
    intro hmem
    apply (List.nodup_append.mp hnodup).2.2 t _ t hlast rfl
    rw [hcells]
    exact List.mem_append_right _ hmem
  obtain ⟨answer, after, left, hbody, -⟩ := run_queueBody hqueued call hcall
  rw [hbody] at hrest
  cases hrest

/-- The queue is first in, first out, with no loss and no duplication, whatever the interleaving:
while `task_lock` is free `tasks` is an acyclic null-terminated list, no use of the queue goes
through `NULL`, and the tasks taken out so far are, in order, the first of the tasks put in. -/
theorem queue_fifo (hstart : Queued start [])
    (hreach : Reaches execQueue queueBody start config) (hfresh : FreshTasks config.order) :
    (config.shared.taskLock = 0 →
        ∃ cells, Chain 0 config.shared.next config.shared.tasks cells ∧ cells.Nodup) ∧
      (∀ proc call position, config.thread proc ≠ .running call position .diverge) ∧
      ∃ completed answers, QueueHistory config completed answers := by
  obtain ⟨completed, answers, -, -, hserialized⟩ := serialized_of_reaches taskLockSemantics
    sectioned_queueBody (not_not.mpr hstart.lock) hreach
  have hhistory := QueueSerialized.history hserialized hstart hfresh
  refine ⟨?_, ?_, completed, answers, hhistory⟩
  · intro hfree
    obtain ⟨-, -, -, -, -, hlist⟩ := hhistory
    obtain ⟨-, cells, hchain, -⟩ := hlist hfree
    exact ⟨cells, hchain, Chain.nodup hchain⟩
  · intro proc call position
    exact QueueSerialized.not_diverge hserialized hstart hfresh

theorem queued_emptyQueue : Queued emptyQueue [] := ⟨rfl, by simp, rfl⟩

/-- One processor has put in a task, and another has taken it out. -/
def onePassed : Config QueueAccess QueueState Bool QueueCall ℕ where
  shared := { emptyQueue with next := Function.update emptyQueue.next 4096 0 }
  thread _ := .idle
  order := [(true, .taskInit 4096), (false, .idleTurn)]
  returned := [⟨false, .idleTurn, some 1, 4096⟩, ⟨true, .taskInit 4096, some 0, 0⟩]

theorem reaches_onePassed : Reaches execQueue queueBody emptyQueue onePassed := by
  have hput : Reaches execQueue queueBody emptyQueue _ := steps_alone (initial emptyQueue) true rfl
    (sectioned_queueBody (.taskInit 4096)) rfl
  exact hput.trans (steps_alone _ false rfl (sectioned_queueBody .idleTurn) rfl)

theorem queue_fifo_onePassed : ∃ completed answers, QueueHistory onePassed completed answers :=
  (queue_fifo queued_emptyQueue reaches_onePassed
    ⟨by decide, by decide, by decide⟩).2.2

end Interleaving

end SideHOS.Tasks
