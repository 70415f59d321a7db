import SideHOS.Sharing.Program

/-!
# Interleaved calls under one lock

Any number of processors run calls concurrently.  Each call runs a program, one shared access at
a time, and the processors' accesses interleave in any order.  `order` records the calls in the
order in which they left their spin loop, and `returned` the calls which have ended, each with
its result and its position in `order`.

A call is `Sectioned` when it spins on the lock first, never touches the lock while it holds it,
and on every path releases it as its last access.  `serializable` shows that sectioned calls
exclude one another and that any interleaving computes the results and the shared state of
running the calls one after another in the order they took the lock.
-/

namespace SideHOS.Sharing

variable {Op State Proc Call Result : Type}

/-- What a processor is doing: nothing, or a call with the rest of its program and, once it has
left its spin loop, its position in the acquisition order. -/
inductive Thread (Op Call Result : Type) where
  | idle
  | running (call : Call) (position : Option ℕ) (rest : Program Op Result)

structure Returned (Proc Call Result : Type) where
  proc : Proc
  call : Call
  position : Option ℕ
  result : Result

/-- The shared state, the processors, and the history of the calls. -/
structure Config (Op State Proc Call Result : Type) where
  shared : State
  thread : Proc → Thread Op Call Result
  order : List (Proc × Call)
  returned : List (Returned Proc Call Result)

open Program

variable [DecidableEq Proc]

inductive Step (exec : Op → State → ℕ × State) (body : Call → Program Op Result) :
    Config Op State Proc Call Result → Config Op State Proc Call Result → Prop
  | invoke (config : Config Op State Proc Call Result) (proc : Proc) (call : Call)
      (hthread : config.thread proc = .idle) :
      Step exec body config
        { config with
          thread := Function.update config.thread proc (.running call none (body call)) }
  | access (config : Config Op State Proc Call Result) (proc : Proc) (call : Call)
      (position : Option ℕ) (operation : Op) (next : ℕ → Program Op Result)
      (hthread : config.thread proc = .running call position (.access operation next)) :
      Step exec body config
        { config with
          shared := (exec operation config.shared).2
          thread := Function.update config.thread proc
            (.running call position (next (exec operation config.shared).1)) }
  | spin (config : Config Op State Proc Call Result) (proc : Proc) (call : Call)
      (position : Option ℕ) (operation : Op) (next : Program Op Result)
      (hthread : config.thread proc = .running call position (.await operation next))
      (hfail : (exec operation config.shared).1 = 0) :
      Step exec body config { config with shared := (exec operation config.shared).2 }
  | pass (config : Config Op State Proc Call Result) (proc : Proc) (call : Call)
      (position : Option ℕ) (operation : Op) (next : Program Op Result)
      (hthread : config.thread proc = .running call position (.await operation next))
      (hsuccess : (exec operation config.shared).1 ≠ 0) :
      Step exec body config
        { config with
          shared := (exec operation config.shared).2
          thread := Function.update config.thread proc
            (.running call (some config.order.length) next)
          order := config.order ++ [(proc, call)] }
  | finish (config : Config Op State Proc Call Result) (proc : Proc) (call : Call)
      (position : Option ℕ) (result : Result)
      (hthread : config.thread proc = .running call position (.done result)) :
      Step exec body config
        { config with
          thread := Function.update config.thread proc .idle
          returned := ⟨proc, call, position, result⟩ :: config.returned }
  | diverge (config : Config Op State Proc Call Result) (proc : Proc) (call : Call)
      (position : Option ℕ) (hthread : config.thread proc = .running call position .diverge) :
      Step exec body config config

/-- Every processor idle and nothing done yet. -/
def initial (state : State) : Config Op State Proc Call Result where
  shared := state
  thread _ := .idle
  order := []
  returned := []

abbrev Reaches (exec : Op → State → ℕ × State) (body : Call → Program Op Result) (state : State)
    (config : Config Op State Proc Call Result) : Prop :=
  Relation.ReflTransGen (Step exec body) (initial state) config

/-- A step inside a call: no call starts or ends. -/
def Internal (exec : Op → State → ℕ × State) (body : Call → Program Op Result)
    (config after : Config Op State Proc Call Result) : Prop :=
  Step exec body config after ∧ ∀ proc, config.thread proc = .idle ↔ after.thread proc = .idle

/-- The calls run one after another, each alone. -/
def runAll (exec : Op → State → ℕ × State) (body : Call → Program Op Result) :
    List (Proc × Call) → State → Option (List Result × State)
  | [], state => some ([], state)
  | entry :: entries, state =>
      (run exec (body entry.2) state).bind fun first ↦
        (runAll exec body entries first.2).map fun rest ↦ (first.1 :: rest.1, rest.2)

section Internal

variable {exec : Op → State → ℕ × State} {body : Call → Program Op Result}
  {config after : Config Op State Proc Call Result}

theorem Internal.returned (h : Internal exec body config after) :
    after.returned = config.returned := by
  obtain ⟨hstep, hidle⟩ := h
  cases hstep with
  | finish proc call position result hthread =>
    have hbefore := (hidle proc).mpr (Function.update_self ..)
    rw [hthread] at hbefore
    cases hbefore
  | _ => rfl

/-- A processor goes on with its call, and once it has left its spin loop it stays out of it. -/
def Continues (before after : Thread Op Call Result) : Prop :=
  after = before ∨ ∃ call position rest later next, before = .running call position rest ∧
    after = .running call later next ∧ (later = none → position = none)

theorem continues_update {threads : Proc → Thread Op Call Result} {moved proc : Proc} {call : Call}
    {position later : Option ℕ} {rest next : Program Op Result}
    (hthread : threads moved = .running call position rest)
    (hlater : later = none → position = none) :
    Continues (threads proc) (Function.update threads moved (.running call later next) proc) := by
  by_cases hproc : proc = moved
  · subst hproc
    exact Or.inr ⟨call, position, rest, later, next, hthread, Function.update_self .., hlater⟩
  · exact Or.inl (Function.update_of_ne hproc ..)

theorem Internal.continues (h : Internal exec body config after) (proc : Proc) :
    Continues (config.thread proc) (after.thread proc) := by
  obtain ⟨hstep, hidle⟩ := h
  cases hstep with
  | invoke moved call hthread =>
    have hafter := (hidle moved).mp hthread
    dsimp only at hafter
    rw [Function.update_self] at hafter
    cases hafter
  | access moved call position operation next hthread => exact continues_update hthread id
  | spin moved call position operation next hthread hfail => exact Or.inl rfl
  | pass moved call position operation next hthread hsuccess =>
    exact continues_update hthread fun hnone ↦ absurd hnone (Option.some_ne_none _)
  | finish moved call position result hthread =>
    have hbefore := (hidle moved).mpr (Function.update_self ..)
    rw [hthread] at hbefore
    cases hbefore
  | diverge moved call position hthread => exact Or.inl rfl

/-- Inside calls the order grows by the call that leaves its spin loop. -/
theorem Internal.order (h : Internal exec body config after) :
    after.order = config.order ∨
      ∃ proc call position operation next position',
        config.thread proc = .running call position (.await operation next) ∧
        after.thread proc = .running call (some position') next ∧
        after.order = config.order ++ [(proc, call)] := by
  obtain ⟨hstep, -⟩ := h
  cases hstep with
  | pass proc call position operation next hthread hsuccess =>
    exact Or.inr ⟨proc, call, position, operation, next, config.order.length, hthread,
      Function.update_self .., rfl⟩
  | _ => exact Or.inl rfl

end Internal

/-! ## Lock discipline -/

/-- What the accesses do to the lock: `acquire` succeeds exactly when the lock is free and then
takes it, `release` frees it, and no other access changes whether it is held. -/
structure LockSemantics (exec : Op → State → ℕ × State) (acquire release : Op)
    (held : State → Prop) : Prop where
  acquire_free : ∀ state, ¬ held state →
    (exec acquire state).1 ≠ 0 ∧ held (exec acquire state).2
  acquire_held : ∀ state, held state → exec acquire state = (0, state)
  release_free : ∀ state, ¬ held (exec release state).2
  other : ∀ operation, operation ≠ acquire → operation ≠ release → ∀ state,
    (held (exec operation state).2 ↔ held state)

/-- A program that never touches the lock. -/
def LockFree {α : Type} (acquire release : Op) : Program Op α → Prop
  | .done _ => True
  | .access operation next =>
      operation ≠ acquire ∧ operation ≠ release ∧ ∀ answer, LockFree acquire release (next answer)
  | .await _ _ => False
  | .diverge => True

/-- The program of a lock holder: on every path the lock is released once, by the last access. -/
def Guarded {α : Type} (acquire release : Op) : Program Op α → Prop
  | .done _ => False
  | .access operation next =>
      (operation = release ∧ ∀ answer, ∃ value, next answer = .done value) ∨
        (operation ≠ acquire ∧ operation ≠ release ∧
          ∀ answer, Guarded acquire release (next answer))
  | .await _ _ => False
  | .diverge => True

/-- A program that is one critical section. -/
def Sectioned {α : Type} (acquire release : Op) (program : Program Op α) : Prop :=
  ∃ section', program = .await acquire section' ∧ Guarded acquire release section'

section Discipline

variable {acquire release : Op} {α β : Type}

theorem lockFree_bind {first : Program Op α} {next : α → Program Op β}
    (hfirst : LockFree acquire release first)
    (hnext : ∀ value, LockFree acquire release (next value)) :
    LockFree acquire release (first >>= next) := by
  change LockFree acquire release (first.bind next)
  induction first with
  | done value => exact hnext value
  | access operation rest ih =>
    exact ⟨hfirst.1, hfirst.2.1, fun answer ↦ ih answer (hfirst.2.2 answer)⟩
  | await operation rest ih => exact hfirst.elim
  | diverge => trivial

theorem guarded_bind {first : Program Op α} {next : α → Program Op β}
    (hfirst : LockFree acquire release first)
    (hnext : ∀ value, Guarded acquire release (next value)) :
    Guarded acquire release (first >>= next) := by
  change Guarded acquire release (first.bind next)
  induction first with
  | done value => exact hnext value
  | access operation rest ih =>
    exact Or.inr ⟨hfirst.1, hfirst.2.1, fun answer ↦ ih answer (hfirst.2.2 answer)⟩
  | await operation rest ih => exact hfirst.elim
  | diverge => trivial

theorem lockFree_perform {operation : Op} (hacquire : operation ≠ acquire)
    (hrelease : operation ≠ release) : LockFree acquire release (perform operation) :=
  ⟨hacquire, hrelease, fun _ ↦ trivial⟩

theorem lockFree_pure (value : α) :
    LockFree acquire release (pure value : Program Op α) := trivial

/-- A program that never touches the lock leaves it as it was. -/
theorem run_lockFree {exec : Op → State → ℕ × State} {held : State → Prop}
    (hlock : LockSemantics exec acquire release held) {program : Program Op α}
    {state after : State} {value : α} (h : LockFree acquire release program)
    (hrun : run exec program state = some (value, after)) : held after ↔ held state := by
  induction program generalizing state with
  | done result =>
    cases hrun
    exact Iff.rfl
  | access operation next ih =>
    exact (ih _ (h.2.2 _) hrun).trans (hlock.other operation h.1 h.2.1 state)
  | await operation next ih => exact h.elim
  | diverge => cases hrun

/-- The holder of the lock has released it when its program ends. -/
theorem run_guarded {exec : Op → State → ℕ × State} {held : State → Prop}
    (hlock : LockSemantics exec acquire release held) {program : Program Op α}
    {state after : State} {value : α} (h : Guarded acquire release program)
    (hrun : run exec program state = some (value, after)) : ¬ held after := by
  induction program generalizing state with
  | done result => exact h.elim
  | access operation next ih =>
    rcases h with ⟨rfl, hdone⟩ | ⟨-, -, hnext⟩
    · obtain ⟨result, hresult⟩ := hdone (exec operation state).1
      rw [run, hresult] at hrun
      cases hrun
      exact hlock.release_free state
    · exact ih _ (hnext _) hrun
  | await operation next ih => exact h.elim
  | diverge => cases hrun

/-- A section that ends leaves the lock free. -/
theorem run_sectioned {exec : Op → State → ℕ × State} {held : State → Prop}
    (hlock : LockSemantics exec acquire release held) {program : Program Op α}
    {state after : State} {value : α} (h : Sectioned acquire release program)
    (hrun : run exec program state = some (value, after)) : ¬ held after := by
  obtain ⟨section', rfl, hguarded⟩ := h
  rw [run] at hrun
  split at hrun
  · cases hrun
  · exact run_guarded hlock hguarded hrun

/-- Releasing the lock and returning ends a section. -/
theorem guarded_release (value : α) :
    Guarded acquire release (perform release >>= fun _ ↦ (pure value : Program Op α)) :=
  Or.inl ⟨rfl, fun _ ↦ ⟨value, rfl⟩⟩

end Discipline

/-! ## Serialization -/

omit [DecidableEq Proc] in
theorem runAll_concat {exec : Op → State → ℕ × State} {body : Call → Program Op Result}
    {entries : List (Proc × Call)} {entry : Proc × Call} {state middle after : State}
    {results : List Result} {result : Result}
    (hentries : runAll exec body entries state = some (results, middle))
    (hentry : run exec (body entry.2) middle = some (result, after)) :
    runAll exec body (entries ++ [entry]) state = some (results ++ [result], after) := by
  induction entries generalizing state results with
  | nil =>
    simp only [runAll, Option.some.injEq, Prod.mk.injEq] at hentries
    obtain ⟨rfl, rfl⟩ := hentries
    simp [runAll, hentry]
  | cons first entries ih =>
    simp only [runAll] at hentries
    obtain ⟨head, hhead, htail⟩ := Option.bind_eq_some_iff.mp hentries
    obtain ⟨rest, hrest, hpair⟩ := Option.map_eq_some_iff.mp htail
    obtain ⟨rfl, rfl⟩ := Prod.mk.inj hpair
    simp [runAll, hhead, ih hrest]

/-- A processor between its acquisition and its release of the lock. -/
def InSection (thread : Thread Op Call Result) : Prop :=
  ∃ call position rest, thread = .running call (some position) rest ∧ ∀ value, rest ≠ .done value

/-- The serial run of `completed` makes this call at this position and gives it this result. -/
def Recorded (completed : List (Proc × Call)) (results : List Result) (proc : Proc) (call : Call)
    (position : Option ℕ) (result : Result) : Prop :=
  ∃ index, position = some index ∧ completed[index]? = some (proc, call) ∧
    results[index]? = some result

/-- A processor that does not hold the lock: idle, not yet past its spin loop, or past its
release with the result that the serial run gives its call. -/
def Outside (body : Call → Program Op Result) (completed : List (Proc × Call))
    (results : List Result) (proc : Proc) (thread : Thread Op Call Result) : Prop :=
  thread = .idle ∨ (∃ call, thread = .running call none (body call)) ∨
    ∃ call position result, thread = .running call position (.done result) ∧
      Recorded completed results proc call position result

/-- The state of an interleaving in terms of the serial run of the calls whose sections have
ended: either the lock is free and the serial run is at the shared state, or one processor holds
it and the rest of its program ends where its whole program ends from the serial state. -/
def SerializedAs (exec : Op → State → ℕ × State) (body : Call → Program Op Result)
    (acquire release : Op) (held : State → Prop) (start : State)
    (completed : List (Proc × Call)) (results : List Result)
    (config : Config Op State Proc Call Result) : Prop :=
  ∃ state : State,
    runAll exec body completed start = some (results, state) ∧
    completed.length = results.length ∧ ¬ held state ∧
    (∀ entry ∈ config.returned,
      Recorded completed results entry.proc entry.call entry.position entry.result) ∧
    ((¬ held config.shared ∧ config.order = completed ∧ config.shared = state ∧
        ∀ proc, Outside body completed results proc (config.thread proc)) ∨
      (held config.shared ∧ ∃ holder call rest,
        config.order = completed ++ [(holder, call)] ∧
        config.thread holder = .running call (some completed.length) rest ∧
        Guarded acquire release rest ∧
        run exec rest config.shared = run exec (body call) state ∧
        ∀ proc, proc ≠ holder → Outside body completed results proc (config.thread proc)))

/-- The interleaving is serialized as some serial run that continues this one. -/
def SerializedFrom (exec : Op → State → ℕ × State) (body : Call → Program Op Result)
    (acquire release : Op) (held : State → Prop) (start : State)
    (completed : List (Proc × Call)) (results : List Result)
    (config : Config Op State Proc Call Result) : Prop :=
  ∃ (later : List (Proc × Call)) (laterResults : List Result), completed <+: later ∧
    results <+: laterResults ∧
    SerializedAs exec body acquire release held start later laterResults config

section Invariant

variable {exec : Op → State → ℕ × State} {body : Call → Program Op Result} {acquire release : Op}
  {held : State → Prop} {start : State} {config after : Config Op State Proc Call Result}
  {completed : List (Proc × Call)} {results : List Result}

omit [DecidableEq Proc] in
theorem recorded_concat {completed : List (Proc × Call)} {results : List Result} {proc : Proc}
    {call : Call} {position : Option ℕ} {result : Result} (entry : Proc × Call) (value : Result)
    (h : Recorded completed results proc call position result) :
    Recorded (completed ++ [entry]) (results ++ [value]) proc call position result := by
  obtain ⟨index, hindex, hcall, hresult⟩ := h
  refine ⟨index, hindex, ?_, ?_⟩
  · rw [List.getElem?_append_left (List.getElem?_eq_some_iff.mp hcall).1]
    exact hcall
  · rw [List.getElem?_append_left (List.getElem?_eq_some_iff.mp hresult).1]
    exact hresult

omit [DecidableEq Proc] in
theorem outside_concat {completed : List (Proc × Call)} {results : List Result} {proc : Proc}
    {thread : Thread Op Call Result} (entry : Proc × Call) (value : Result)
    (h : Outside body completed results proc thread) :
    Outside body (completed ++ [entry]) (results ++ [value]) proc thread := by
  rcases h with h | h | ⟨call, position, result, hthread, hrecorded⟩
  · exact Or.inl h
  · exact Or.inr (Or.inl h)
  · exact Or.inr (Or.inr ⟨call, position, result, hthread, recorded_concat entry value hrecorded⟩)

theorem outside_update_of_ne {completed : List (Proc × Call)} {results : List Result}
    {threads : Proc → Thread Op Call Result} {proc other : Proc} {thread : Thread Op Call Result}
    (hne : other ≠ proc) (h : Outside body completed results other (threads other)) :
    Outside body completed results other (Function.update threads proc thread other) := by
  rwa [Function.update_of_ne hne]

theorem outside_update {completed : List (Proc × Call)} {results : List Result}
    {threads : Proc → Thread Op Call Result} {proc : Proc} {thread : Thread Op Call Result}
    (P : Proc → Prop) (hthread : Outside body completed results proc thread)
    (hothers : ∀ other, P other → Outside body completed results other (threads other)) :
    ∀ other, P other →
      Outside body completed results other (Function.update threads proc thread other) := by
  intro other hother
  by_cases h : other = proc
  · subst h
    rwa [Function.update_self]
  · exact outside_update_of_ne h (hothers other hother)

omit [DecidableEq Proc] in
/-- Outside the section only a spin loop on the lock is left to run. -/
theorem outside_running {completed : List (Proc × Call)} {results : List Result} {proc : Proc}
    {call : Call} {position : Option ℕ} {rest : Program Op Result}
    (hbody : ∀ call, Sectioned acquire release (body call))
    (h : Outside body completed results proc (.running call position rest)) :
    (position = none ∧ rest = body call ∧ ∃ next, rest = .await acquire next ∧
        Guarded acquire release next) ∨
      ∃ result, rest = .done result ∧ Recorded completed results proc call position result := by
  rcases h with h | ⟨call', h⟩ | ⟨call', index, result, h, hresult⟩
  · cases h
  · obtain ⟨rfl, rfl, rfl⟩ := Thread.running.inj h
    obtain ⟨next, hnext, hguarded⟩ := hbody call
    exact Or.inl ⟨rfl, rfl, next, hnext, hguarded⟩
  · obtain ⟨rfl, rfl, rfl⟩ := Thread.running.inj h
    exact Or.inr ⟨result, rfl, hresult⟩

omit [DecidableEq Proc] in
theorem serialized_initial (hstart : ¬ held start) :
    SerializedAs exec body acquire release held start [] []
      (initial start : Config Op State Proc Call Result) :=
  ⟨start, rfl, rfl, hstart, by simp [initial],
    Or.inl ⟨hstart, rfl, rfl, fun _ ↦ Or.inl rfl⟩⟩

/-- The holder's next access: either it is the release, and the serial run gains the holder's
call, or the section goes on. -/
theorem serialized_access (hlock : LockSemantics exec acquire release held)
    (hbody : ∀ call, Sectioned acquire release (body call)) {proc : Proc} {call : Call}
    {position : Option ℕ} {operation : Op} {next : ℕ → Program Op Result}
    (hthread : config.thread proc = .running call position (.access operation next))
    (h : SerializedAs exec body acquire release held start completed results config) :
    SerializedFrom exec body acquire release held start completed results
      { config with
        shared := (exec operation config.shared).2
        thread := Function.update config.thread proc
          (.running call position (next (exec operation config.shared).1)) } := by
  obtain ⟨state, hrun, hlength, hstate, hreturned, hcase⟩ := h
  have houtside : ¬ Outside body completed results proc (config.thread proc) := by
    intro hout
    rw [hthread] at hout
    rcases outside_running hbody hout with ⟨-, -, next', heq, -⟩ | ⟨result, heq, -⟩ <;> cases heq
  rcases hcase with ⟨-, -, -, hothers⟩ | ⟨hheld, holder, holderCall, rest, horder, hholder,
    hguarded, hrest, hothers⟩
  · exact absurd (hothers proc) houtside
  obtain rfl : proc = holder := by
    by_contra hne
    exact houtside (hothers proc hne)
  rw [hthread] at hholder
  obtain ⟨rfl, rfl, rfl⟩ := Thread.running.inj hholder
  rcases hguarded with ⟨rfl, hdone⟩ | ⟨hacquire, hrelease, hguarded⟩
  · obtain ⟨value, hvalue⟩ := hdone (exec operation config.shared).1
    have hcall : run exec (body call) state = some (value, (exec operation config.shared).2) := by
      rw [← hrest]
      simp [run, hvalue]
    refine ⟨completed ++ [(proc, call)], results ++ [value], List.prefix_append _ _,
      List.prefix_append _ _, (exec operation config.shared).2, runAll_concat hrun hcall,
      by simp [hlength], hlock.release_free _, ?_,
      Or.inl ⟨hlock.release_free _, horder, rfl, ?_⟩⟩
    · exact fun entry hentry ↦ recorded_concat _ _ (hreturned entry hentry)
    · intro other
      by_cases hother : other = proc
      · subst hother
        refine Or.inr (Or.inr
          ⟨call, some completed.length, value, ?_, completed.length, rfl, ?_, ?_⟩)
        · simp [hvalue]
        · simp
        · simp [hlength]
      · exact outside_update_of_ne hother (outside_concat _ value (hothers other hother))
  · refine ⟨completed, results, List.prefix_rfl, List.prefix_rfl, state, hrun, hlength, hstate,
      hreturned,
      Or.inr ⟨(hlock.other operation hacquire hrelease _).mpr hheld, proc, call, _, horder,
        Function.update_self .., hguarded _, hrest,
        fun other hother ↦ outside_update_of_ne hother (hothers other hother)⟩⟩

/-- A processor at its spin loop: the loop is on the lock, and nobody else is affected. -/
theorem serialized_await
    (hbody : ∀ call, Sectioned acquire release (body call)) {proc : Proc} {call : Call}
    {position : Option ℕ} {operation : Op} {next : Program Op Result}
    (hthread : config.thread proc = .running call position (.await operation next))
    (h : SerializedAs exec body acquire release held start completed results config) :
    operation = acquire ∧ position = none ∧ body call = .await acquire next ∧
      Guarded acquire release next := by
  obtain ⟨state, -, -, -, -, hcase⟩ := h
  have houtside : Outside body completed results proc (config.thread proc) := by
    rcases hcase with ⟨-, -, -, hothers⟩ | ⟨-, holder, holderCall, rest, -, hholder, hguarded, -,
      hothers⟩
    · exact hothers proc
    · by_cases hproc : proc = holder
      · subst hproc
        rw [hthread] at hholder
        obtain ⟨rfl, rfl, rfl⟩ := Thread.running.inj hholder
        exact hguarded.elim
      · exact hothers proc hproc
  rw [hthread] at houtside
  rcases outside_running hbody houtside with ⟨hposition, hrest, next', heq, hguarded⟩ |
    ⟨result, heq, -⟩
  · cases heq
    exact ⟨rfl, hposition, hrest.symm, hguarded⟩
  · cases heq

theorem serialized_step (hlock : LockSemantics exec acquire release held)
    (hbody : ∀ call, Sectioned acquire release (body call))
    (hstep : Step exec body config after)
    (h : SerializedAs exec body acquire release held start completed results config) :
    SerializedFrom exec body acquire release held start completed results after := by
  cases hstep with
  | invoke proc call hthread =>
    obtain ⟨state, hrun, hlength, hstate, hreturned, hcase⟩ := h
    have hwaiting : Outside body completed results proc (.running call none (body call)) :=
      Or.inr (Or.inl ⟨call, rfl⟩)
    refine ⟨completed, results, List.prefix_rfl, List.prefix_rfl, state, hrun, hlength, hstate,
      hreturned, ?_⟩
    rcases hcase with ⟨hfree, horder, hshared, hothers⟩ | ⟨hheld, holder, holderCall, rest, horder,
      hholder, hguarded, hrest, hothers⟩
    · exact Or.inl ⟨hfree, horder, hshared, fun other ↦
        outside_update (fun _ ↦ True) hwaiting (fun other _ ↦ hothers other) other trivial⟩
    · have hne : holder ≠ proc := by
        rintro rfl
        rw [hthread] at hholder
        cases hholder
      refine Or.inr ⟨hheld, holder, holderCall, rest, horder, ?_, hguarded, hrest,
        outside_update (fun other ↦ other ≠ holder) hwaiting hothers⟩
      change Function.update _ _ _ _ = _
      rw [Function.update_of_ne hne]
      exact hholder
  | access proc call position operation next hthread =>
    exact serialized_access hlock hbody hthread h
  | spin proc call position operation next hthread hfail =>
    obtain ⟨rfl, -, -, -⟩ := serialized_await hbody hthread h
    have hheld : held config.shared := by
      by_contra hfree
      exact (hlock.acquire_free _ hfree).1 hfail
    rw [hlock.acquire_held _ hheld]
    exact ⟨completed, results, List.prefix_rfl, List.prefix_rfl, h⟩
  | pass proc call position operation next hthread hsuccess =>
    obtain ⟨rfl, rfl, hcall, hguarded⟩ := serialized_await hbody hthread h
    obtain ⟨state, hrun, hlength, hstate, hreturned, hcase⟩ := h
    rcases hcase with ⟨hfree, horder, hshared, hothers⟩ | ⟨hheld, -⟩
    · refine ⟨completed, results, List.prefix_rfl, List.prefix_rfl, state, hrun, hlength, hstate,
        hreturned,
        Or.inr ⟨(hlock.acquire_free _ hfree).2, proc, call, next, by rw [horder], ?_, hguarded, ?_,
          fun other hother ↦ outside_update_of_ne hother (hothers other)⟩⟩
      · rw [← horder]
        exact Function.update_self ..
      · rw [hcall, ← hshared]
        simp [run, hsuccess]
    · rw [hlock.acquire_held _ hheld] at hsuccess
      exact absurd rfl hsuccess
  | finish proc call position result hthread =>
    obtain ⟨state, hrun, hlength, hstate, hreturned, hcase⟩ := h
    have hidle : Outside body completed results proc (.idle : Thread Op Call Result) := Or.inl rfl
    have hrecord (hout : Outside body completed results proc (config.thread proc)) :
        Recorded completed results proc call position result := by
      rw [hthread] at hout
      rcases outside_running hbody hout with ⟨-, -, next, heq, -⟩ | ⟨value, heq, hvalue⟩
      · cases heq
      · cases heq
        exact hvalue
    rcases hcase with ⟨hfree, horder, hshared, hothers⟩ | ⟨hheld, holder, holderCall, rest, horder,
      hholder, hguarded, hrest, hothers⟩
    · refine ⟨completed, results, List.prefix_rfl, List.prefix_rfl, state, hrun, hlength, hstate,
        ?_, Or.inl ⟨hfree, horder, hshared,
        fun other ↦ outside_update (fun _ ↦ True) hidle (fun other _ ↦ hothers other) other
          trivial⟩⟩
      intro entry hentry
      rcases List.mem_cons.mp hentry with rfl | hentry
      · exact hrecord (hothers proc)
      · exact hreturned entry hentry
    · have hne : holder ≠ proc := by
        rintro rfl
        rw [hthread] at hholder
        obtain ⟨rfl, rfl, rfl⟩ := Thread.running.inj hholder
        exact hguarded
      refine ⟨completed, results, List.prefix_rfl, List.prefix_rfl, state, hrun, hlength, hstate,
        ?_, Or.inr ⟨hheld, holder,
        holderCall, rest, horder, ?_, hguarded, hrest,
        outside_update (fun other ↦ other ≠ holder) hidle hothers⟩⟩
      · intro entry hentry
        rcases List.mem_cons.mp hentry with rfl | hentry
        · exact hrecord (hothers proc (Ne.symm hne))
        · exact hreturned entry hentry
      · change Function.update _ _ _ _ = _
        rw [Function.update_of_ne hne]
        exact hholder
  | diverge proc call position hthread =>
    exact ⟨completed, results, List.prefix_rfl, List.prefix_rfl, h⟩

/-- Every interleaving is serialized. -/
theorem serialized_of_reaches (hlock : LockSemantics exec acquire release held)
    (hbody : ∀ call, Sectioned acquire release (body call)) (hstart : ¬ held start)
    (hreach : Reaches exec body start config) :
    SerializedFrom exec body acquire release held start [] [] config := by
  induction hreach with
  | refl => exact ⟨[], [], List.prefix_rfl, List.prefix_rfl, serialized_initial hstart⟩
  | tail _ hstep ih =>
    obtain ⟨completed, results, -, -, hserialized⟩ := ih
    obtain ⟨later, laterResults, -, -, hlater⟩ := serialized_step hlock hbody hstep hserialized
    exact ⟨later, laterResults, List.nil_prefix, List.nil_prefix, hlater⟩

omit [DecidableEq Proc] in
theorem not_inSection_of_outside {completed : List (Proc × Call)} {results : List Result}
    {proc : Proc} {thread : Thread Op Call Result}
    (h : Outside body completed results proc thread) : ¬ InSection thread := by
  rintro ⟨call, position, rest, rfl, hrest⟩
  rcases h with h | ⟨call', h⟩ | ⟨call', index, result, h, -⟩
  · cases h
  · cases h
  · obtain ⟨-, -, rfl⟩ := Thread.running.inj h
    exact hrest result rfl

omit [DecidableEq Proc] in
/-- Sections exclude one another, and the lock is held exactly while one runs. -/
theorem SerializedAs.exclusive
    (h : SerializedAs exec body acquire release held start completed results config) :
    (∀ first second, InSection (config.thread first) → InSection (config.thread second) →
        first = second) ∧
      (held config.shared ↔ ∃ proc, InSection (config.thread proc)) := by
  obtain ⟨state, -, -, -, -, hcase⟩ := h
  rcases hcase with ⟨hfree, -, -, hothers⟩ | ⟨hheld, holder, holderCall, rest, -, hholder,
    hguarded, -, hothers⟩
  · refine ⟨fun first _ hfirst _ ↦ absurd hfirst (not_inSection_of_outside (hothers first)),
      fun hheld ↦ absurd hheld hfree, ?_⟩
    rintro ⟨proc, hproc⟩
    exact absurd hproc (not_inSection_of_outside (hothers proc))
  · have honly (proc : Proc) (hproc : InSection (config.thread proc)) : proc = holder := by
      by_contra hne
      exact not_inSection_of_outside (hothers proc hne) hproc
    refine ⟨fun first second hfirst hsecond ↦
        (honly first hfirst).trans (honly second hsecond).symm,
      fun _ ↦ ⟨holder, holderCall, completed.length, rest, hholder, ?_⟩, fun _ ↦ hheld⟩
    rintro value rfl
    exact hguarded

end Invariant

/-! ## A call alone -/

section Alone

variable {exec : Op → State → ℕ × State} {body : Call → Program Op Result} {acquire release : Op}
  {proc : Proc} {call : Call} {result : Result} {after : State}

/-- A step that only moves a running processor is inside its call. -/
theorem internal_of_step {config next : Config Op State Proc Call Result}
    {position later : Option ℕ} {rest moved : Program Op Result}
    (hstep : Step exec body config next)
    (hthread : config.thread proc = .running call position rest)
    (hnext : next.thread =
      Function.update config.thread proc (.running call later moved)) :
    Internal exec body config next := by
  refine ⟨hstep, fun other ↦ ?_⟩
  rw [hnext]
  by_cases hother : other = proc
  · subst hother
    simp [hthread]
  · rw [Function.update_of_ne hother]

/-- A lock holder that nobody interrupts runs to its end. -/
theorem internal_guarded {rest : Program Op Result} (config : Config Op State Proc Call Result)
    {position : Option ℕ} (hthread : config.thread proc = .running call position rest)
    (hguarded : Guarded acquire release rest)
    (hrun : run exec rest config.shared = some (result, after)) :
    Relation.ReflTransGen (Internal exec body) config
      { config with
        shared := after
        thread := Function.update config.thread proc (.running call position (.done result)) } := by
  induction rest generalizing config with
  | done value => exact hguarded.elim
  | access operation next ih =>
    have hstep : Step exec body config _ :=
      Step.access config proc call position operation next hthread
    refine .head (internal_of_step hstep hthread rfl) ?_
    rcases hguarded with ⟨-, hdone⟩ | ⟨-, -, hnext⟩
    · obtain ⟨value, hvalue⟩ := hdone (exec operation config.shared).1
      have hpair : some (value, (exec operation config.shared).2) = some (result, after) := by
        rw [← hrun]
        simp [run, hvalue]
      obtain ⟨rfl, rfl⟩ := Prod.mk.inj (Option.some.inj hpair)
      rw [hvalue]
    · have htail := ih (exec operation config.shared).1
        { config with
          shared := (exec operation config.shared).2
          thread := Function.update config.thread proc
            (.running call position (next (exec operation config.shared).1)) }
        (Function.update_self ..) (hnext _) hrun
      simpa only [Function.update_idem] using htail
  | await operation next ih => exact hguarded.elim
  | diverge => cases hrun

/-- A call that nobody interrupts takes the lock and runs to its end. -/
theorem internal_alone (config : Config Op State Proc Call Result)
    (hthread : config.thread proc = .running call none (body call))
    (hbody : Sectioned acquire release (body call))
    (hrun : run exec (body call) config.shared = some (result, after)) :
    Relation.ReflTransGen (Internal exec body) config
      { config with
        shared := after
        thread := Function.update config.thread proc
          (.running call (some config.order.length) (.done result))
        order := config.order ++ [(proc, call)] } := by
  obtain ⟨rest, hrest, hguarded⟩ := hbody
  rw [hrest] at hthread hrun
  have hsuccess : (exec acquire config.shared).1 ≠ 0 := by
    intro hzero
    simp [run, hzero] at hrun
  simp only [run, if_neg hsuccess] at hrun
  have hpass : Step exec body config _ :=
    Step.pass config proc call none acquire rest hthread hsuccess
  have hrunning : Relation.ReflTransGen (Internal exec body) _ _ := internal_guarded
    { config with
      shared := (exec acquire config.shared).2
      thread := Function.update config.thread proc (.running call (some config.order.length) rest)
      order := config.order ++ [(proc, call)] }
    (Function.update_self ..) hguarded hrun
  simp only [Function.update_idem] at hrunning
  exact .head (internal_of_step hpass hthread rfl) hrunning

/-- A call that nobody interrupts is made, takes the lock, and answers what it answers alone. -/
theorem steps_alone (config : Config Op State Proc Call Result) (proc : Proc)
    (hthread : config.thread proc = .idle) (hbody : Sectioned acquire release (body call))
    (hrun : run exec (body call) config.shared = some (result, after)) :
    Relation.ReflTransGen (Step exec body) config
      { config with
        shared := after
        order := config.order ++ [(proc, call)]
        returned := ⟨proc, call, some config.order.length, result⟩ :: config.returned } := by
  have hinvoke : Step exec body config _ := Step.invoke config proc call hthread
  have hrunning : Relation.ReflTransGen (Internal exec body) _ _ := internal_alone
    { config with
      thread := Function.update config.thread proc (.running call none (body call)) }
    (Function.update_self ..) hbody hrun
  have hfinish : Step exec body _ _ := Step.finish
    { config with
      shared := after
      thread := Function.update config.thread proc
        (.running call (some config.order.length) (.done result))
      order := config.order ++ [(proc, call)] }
    proc call (some config.order.length) result (Function.update_self ..)
  have hidle : Function.update config.thread proc .idle = config.thread := by
    rw [← hthread, Function.update_eq_self]
  simp only [Function.update_idem, hidle] at hrunning hfinish
  have hsteps : Relation.ReflTransGen (Step exec body) _ _ :=
    Relation.ReflTransGen.mono (fun _ _ h ↦ And.left h) _ _ hrunning
  exact .head hinvoke (hsteps.tail hfinish)

end Alone

end SideHOS.Sharing
