import SideHOS.Sharing.Interleaving

/-!
# Places in the order of acquisition

A sectioned call leaves its spin loop once.  Each place in the order in which calls took the lock
therefore belongs to one call, which is still running or has returned, and no two calls that have
returned share a place.  What the serial run answers at a place is an answer of that call.
-/

namespace SideHOS.Sharing

open Program

variable {Op State Proc Call Result : Type}

/-- Every answer of the program, on every path, has the property. -/
def Program.Yields {α : Type} (property : α → Prop) : Program Op α → Prop
  | .done value => property value
  | .access _ next => ∀ answer, Yields property (next answer)
  | .await _ next => Yields property next
  | .diverge => True

section Answers

variable {α β : Type} {property : β → Prop} {exec : Op → State → ℕ × State}

theorem yields_bind {first : Program Op α} {next : α → Program Op β}
    (hnext : ∀ value, Yields property (next value)) : Yields property (first >>= next) := by
  change Yields property (first.bind next)
  induction first with
  | done value => exact hnext value
  | access operation rest ih => exact fun answer ↦ ih answer
  | await operation rest ih => exact ih
  | diverge => trivial

theorem Program.Yields.of_run {program : Program Op β} {state after : State} {value : β}
    (h : Yields property program) (hrun : run exec program state = some (value, after)) :
    property value := by
  induction program generalizing state with
  | done result =>
    cases hrun
    exact h
  | access operation next ih => exact ih _ (h _) hrun
  | await operation next ih =>
    rw [run] at hrun
    split at hrun
    · cases hrun
    · exact ih h hrun
  | diverge => cases hrun

/-- The serial run answers at each place what the call there answers in some state. -/
theorem runAll_getElem? {body : Call → Program Op Result} {entries : List (Proc × Call)}
    {results : List Result} {state after : State} {place : ℕ} {entry : Proc × Call}
    {result : Result} (hrun : runAll exec body entries state = some (results, after))
    (hentry : entries[place]? = some entry) (hresult : results[place]? = some result) :
    ∃ before later, run exec (body entry.2) before = some (result, later) := by
  induction entries generalizing state results place with
  | nil => cases hentry
  | cons first entries ih =>
    obtain ⟨pair, hfirst, hrest⟩ := Option.bind_eq_some_iff.mp hrun
    obtain ⟨rest, hentries, heq⟩ := Option.map_eq_some_iff.mp hrest
    obtain ⟨rfl, rfl⟩ := Prod.mk.inj heq
    cases place with
    | zero =>
      cases hentry
      cases hresult
      exact ⟨state, pair.2, hfirst⟩
    | succ place => exact ih hentries hentry hresult

end Answers

/-- Calls that are running or have returned, and their places in the order of acquisition. -/
structure Placed (config : Config Op State Proc Call Result) : Prop where
  running : ∀ proc call place rest, config.thread proc = .running call (some place) rest →
    config.order[place]? = some (proc, call) ∧
      ∀ entry ∈ config.returned, entry.position ≠ some place
  returned : ∀ entry ∈ config.returned, ∀ place, entry.position = some place →
    config.order[place]? = some (entry.proc, entry.call)
  once : config.returned.Pairwise fun first second ↦
    ∀ place, first.position = some place → second.position ≠ some place
  covered : ∀ place < config.order.length,
    (∃ entry ∈ config.returned, entry.position = some place) ∨
      ∃ proc call rest, config.thread proc = .running call (some place) rest

section Placed

variable [DecidableEq Proc] {exec : Op → State → ℕ × State} {body : Call → Program Op Result}
  {acquire release : Op} {held : State → Prop} {start : State}
  {config after : Config Op State Proc Call Result} {proc : Proc} {call : Call}
  {position : Option ℕ} {rest : Program Op Result}

/-- A processor without a place may change what it does. -/
theorem exists_running_update {thread : Proc → Thread Op Call Result} {place : ℕ}
    (hnone : ∀ call rest, thread proc ≠ .running call (some place) rest)
    (next : Thread Op Call Result)
    (h : ∃ other call rest, thread other = .running call (some place) rest) :
    ∃ other call rest,
      Function.update thread proc next other = .running call (some place) rest := by
  obtain ⟨other, call, rest, hother⟩ := h
  refine ⟨other, call, rest, ?_⟩
  rwa [Function.update_of_ne]
  rintro rfl
  exact hnone call rest hother

/-- A running call goes on at its place. -/
theorem Placed.move (h : Placed config) (hthread : config.thread proc = .running call position rest)
    (next : Program Op Result) (state : State) :
    Placed
      { config with
        shared := state
        thread := Function.update config.thread proc (.running call position next) } where
  running other otherCall place otherRest hother := by
    by_cases heq : other = proc
    · subst heq
      dsimp only at hother
      rw [Function.update_self] at hother
      obtain ⟨rfl, rfl, -⟩ := Thread.running.inj hother
      exact h.running other call place rest hthread
    · dsimp only at hother
      rw [Function.update_of_ne heq] at hother
      exact h.running other otherCall place otherRest hother
  returned := h.returned
  once := h.once
  covered place hplace := by
    apply (h.covered place hplace).imp_right
    rintro ⟨other, otherCall, otherRest, hother⟩
    by_cases heq : other = proc
    · subst heq
      rw [hthread] at hother
      obtain ⟨rfl, rfl, -⟩ := Thread.running.inj hother
      exact ⟨other, call, next, Function.update_self ..⟩
    · refine ⟨other, otherCall, otherRest, ?_⟩
      dsimp only
      rwa [Function.update_of_ne heq]

theorem Placed.invoke (h : Placed config) (hthread : config.thread proc = .idle) (call : Call) :
    Placed
      { config with
        thread := Function.update config.thread proc (.running call none (body call)) } where
  running other otherCall place otherRest hother := by
    by_cases heq : other = proc
    · subst heq
      simp at hother
    · dsimp only at hother
      rw [Function.update_of_ne heq] at hother
      exact h.running other otherCall place otherRest hother
  returned := h.returned
  once := h.once
  covered place hplace := by
    apply (h.covered place hplace).imp_right
    exact exists_running_update (by simp [hthread]) _

/-- A call that leaves its spin loop takes the next place. -/
theorem Placed.pass (h : Placed config) (hthread : config.thread proc = .running call none rest)
    (next : Program Op Result) (state : State) :
    Placed
      { config with
        shared := state
        thread := Function.update config.thread proc
          (.running call (some config.order.length) next)
        order := config.order ++ [(proc, call)] } where
  running other otherCall place otherRest hother := by
    by_cases heq : other = proc
    · subst heq
      dsimp only at hother
      rw [Function.update_self] at hother
      obtain ⟨rfl, hplace, -⟩ := Thread.running.inj hother
      obtain rfl := Option.some.inj hplace
      refine ⟨List.getElem?_concat_length, fun entry hentry hposition ↦ ?_⟩
      have hin := h.returned entry hentry _ hposition
      rw [List.getElem?_eq_none le_rfl] at hin
      cases hin
    · dsimp only at hother
      rw [Function.update_of_ne heq] at hother
      obtain ⟨horder, hnew⟩ := h.running other otherCall place otherRest hother
      refine ⟨?_, hnew⟩
      rwa [List.getElem?_append_left (List.getElem?_eq_some_iff.mp horder).1]
  returned entry hentry place hposition := by
    have hin := h.returned entry hentry place hposition
    dsimp only
    rwa [List.getElem?_append_left (List.getElem?_eq_some_iff.mp hin).1]
  once := h.once
  covered place hplace := by
    rw [List.length_append, List.length_singleton] at hplace
    rcases Nat.lt_succ_iff_lt_or_eq.mp hplace with hold | rfl
    · apply (h.covered place hold).imp_right
      exact exists_running_update (by simp [hthread]) _
    · exact Or.inr ⟨proc, call, next, Function.update_self ..⟩

/-- A call that returns keeps its place. -/
theorem Placed.finish (h : Placed config)
    (hthread : config.thread proc = .running call position rest) (result : Result) :
    Placed
      { config with
        thread := Function.update config.thread proc .idle
        returned := ⟨proc, call, position, result⟩ :: config.returned } where
  running other otherCall place otherRest hother := by
    have hne : other ≠ proc := by
      rintro rfl
      simp at hother
    dsimp only at hother ⊢
    rw [Function.update_of_ne hne] at hother
    obtain ⟨horder, hnew⟩ := h.running other otherCall place otherRest hother
    refine ⟨horder, List.forall_mem_cons.mpr ⟨?_, hnew⟩⟩
    rintro rfl
    have hown := (h.running proc call place rest hthread).1
    rw [horder] at hown
    exact hne (Prod.mk.inj (Option.some.inj hown)).1
  returned := by
    refine List.forall_mem_cons.mpr ⟨?_, h.returned⟩
    rintro place rfl
    exact (h.running proc call place rest hthread).1
  once := by
    refine List.pairwise_cons.mpr ⟨?_, h.once⟩
    rintro entry hentry place rfl
    exact (h.running proc call place rest hthread).2 entry hentry
  covered place hplace := by
    rcases h.covered place hplace with ⟨entry, hentry, hposition⟩ |
      ⟨other, otherCall, otherRest, hother⟩
    · exact Or.inl ⟨entry, List.mem_cons_of_mem _ hentry, hposition⟩
    · by_cases heq : other = proc
      · subst heq
        rw [hthread] at hother
        obtain ⟨-, rfl, -⟩ := Thread.running.inj hother
        exact Or.inl ⟨_, List.mem_cons_self, rfl⟩
      · refine Or.inr ⟨other, otherCall, otherRest, ?_⟩
        dsimp only
        rwa [Function.update_of_ne heq]

/-- Calls have places of their own, whatever the interleaving. -/
theorem placed_of_reaches (hlock : LockSemantics exec acquire release held)
    (hbody : ∀ call, Sectioned acquire release (body call)) (hstart : ¬ held start)
    (hreach : Reaches exec body start config) : Placed config := by
  induction hreach with
  | refl => exact ⟨nofun, nofun, List.Pairwise.nil, nofun⟩
  | tail hreach hstep ih =>
    cases hstep with
    | invoke proc call hthread => exact ih.invoke hthread call
    | access proc call position operation next hthread => exact ih.move hthread _ _
    | spin proc call position operation next hthread hfail =>
      exact ⟨ih.running, ih.returned, ih.once, ih.covered⟩
    | pass proc call position operation next hthread hsuccess =>
      obtain ⟨completed, results, -, -, hserialized⟩ :=
        serialized_of_reaches hlock hbody hstart hreach
      obtain ⟨-, rfl, -, -⟩ := serialized_await hbody hthread hserialized
      exact ih.pass hthread _ _
    | finish proc call position result hthread => exact ih.finish hthread result
    | diverge proc call position hthread => exact ih

end Placed

end SideHOS.Sharing
