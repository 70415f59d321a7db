import SideHOS.Sharing.Program

/-!
# The accesses of a program

`accesses` lists the accesses which a program performs when it runs alone, also when the run does
not end.  `Uses` bounds them without running the program: on every path, as long as the accesses
answer as they may, each access is allowed.
-/

namespace SideHOS.Sharing.Program

variable {Op State α β : Type}

def accesses (exec : Op → State → ℕ × State) : Program Op α → State → List Op
  | done _, _ => []
  | access operation next, state =>
      operation :: accesses exec (next (exec operation state).1) (exec operation state).2
  | await operation next, state =>
      operation :: if (exec operation state).1 = 0 then []
        else accesses exec next (exec operation state).2
  | diverge, _ => []

section Accesses

variable {exec : Op → State → ℕ × State} {holds : State → Prop} {program : Program Op α}
  {state after : State} {value : α}

@[simp]
theorem accesses_pure (value : α) (state : State) :
    accesses exec (pure value : Program Op α) state = [] := rfl

@[simp]
theorem accesses_perform_bind (operation : Op) (next : ℕ → Program Op β) (state : State) :
    accesses exec (perform operation >>= next) state =
      operation :: accesses exec (next (exec operation state).1) (exec operation state).2 := rfl

theorem accesses_ite (condition : Prop) [Decidable condition] (first second : Program Op α)
    (state : State) :
    accesses exec (if condition then first else second) state =
      if condition then accesses exec first state else accesses exec second state := by
  split <;> rfl

/-- A program performs the accesses of its first part, and then those of the rest if the first
part ends. -/
theorem accesses_bind (first : Program Op α) (next : α → Program Op β) (state : State) :
    accesses exec (first >>= next) state = accesses exec first state ++
      (run exec first state).elim [] fun result ↦ accesses exec (next result.1) result.2 := by
  change accesses exec (bind first next) state = _
  induction first generalizing state with
  | done value => rfl
  | access operation rest ih =>
    rw [bind, accesses, ih, accesses, List.cons_append]
    rfl
  | await operation rest ih =>
    rw [bind, accesses, accesses, run, List.cons_append]
    split
    · rfl
    · rw [ih]
  | diverge => rfl

/-- Answering is no access. -/
theorem accesses_bind_pure (program : Program Op α) (answer : α → β) (state : State) :
    accesses exec (program >>= fun value ↦ pure (answer value)) state =
      accesses exec program state := by
  rw [accesses_bind]
  cases run exec program state <;> simp

/-- What every access keeps holds after a program that ends. -/
theorem run_holds (hexec : ∀ operation state, holds state → holds (exec operation state).2)
    (hstate : holds state) (hrun : run exec program state = some (value, after)) :
    holds after := by
  induction program generalizing state with
  | done result =>
    cases hrun
    exact hstate
  | access operation next ih => exact ih _ (hexec operation state hstate) hrun
  | await operation next ih =>
    rw [run] at hrun
    split at hrun
    · cases hrun
    · exact ih (hexec operation state hstate) hrun
  | diverge => cases hrun

end Accesses

/-- Every access on every path is allowed, as long as accesses answer what they may. -/
def Uses (answers : Op → ℕ → Prop) (allowed : Op → Prop) : Program Op α → Prop
  | done _ => True
  | access operation next => allowed operation ∧
      ∀ answer, answers operation answer → Uses answers allowed (next answer)
  | await operation next => allowed operation ∧ Uses answers allowed next
  | diverge => True

section Uses

variable {answers : Op → ℕ → Prop} {allowed : Op → Prop} {operation : Op}

theorem uses_pure (value : α) : Uses answers allowed (pure value : Program Op α) := trivial

theorem uses_perform (hallowed : allowed operation) :
    Uses answers allowed (perform operation) := ⟨hallowed, fun _ _ ↦ trivial⟩

theorem uses_bind {first : Program Op α} {next : α → Program Op β}
    (hfirst : Uses answers allowed first) (hnext : ∀ value, Uses answers allowed (next value)) :
    Uses answers allowed (first >>= next) := by
  change Uses answers allowed (bind first next)
  induction first with
  | done value => exact hnext value
  | access operation rest ih =>
    exact ⟨hfirst.1, fun answer hanswer ↦ ih answer (hfirst.2 answer hanswer)⟩
  | await operation rest ih => exact ⟨hfirst.1, ih hfirst.2⟩
  | diverge => trivial

/-- One access, and then a program that may rely on the answer. -/
theorem uses_access {next : ℕ → Program Op β} (hallowed : allowed operation)
    (hnext : ∀ answer, answers operation answer → Uses answers allowed (next answer)) :
    Uses answers allowed (perform operation >>= next) := ⟨hallowed, hnext⟩

theorem uses_ite {condition : Prop} [Decidable condition] {first second : Program Op α}
    (hfirst : condition → Uses answers allowed first)
    (hsecond : ¬ condition → Uses answers allowed second) :
    Uses answers allowed (if condition then first else second) := by
  split
  · next h => exact hfirst h
  · next h => exact hsecond h

/-- A program performs allowed accesses only, from every state where accesses answer as they
may. -/
theorem Uses.forall_accesses {exec : Op → State → ℕ × State} {holds : State → Prop}
    {program : Program Op α} {state : State} (h : Uses answers allowed program)
    (hexec : ∀ operation state, holds state →
      answers operation (exec operation state).1 ∧ holds (exec operation state).2)
    (hstate : holds state) : ∀ operation ∈ accesses exec program state, allowed operation := by
  induction program generalizing state with
  | done value => exact nofun
  | access operation next ih =>
    obtain ⟨hanswer, hafter⟩ := hexec operation state hstate
    exact List.forall_mem_cons.mpr ⟨h.1, ih _ (h.2 _ hanswer) hafter⟩
  | await operation next ih =>
    refine List.forall_mem_cons.mpr ⟨h.1, ?_⟩
    split
    · exact nofun
    · exact ih h.2 (hexec operation state hstate).2
  | diverge => exact nofun

/-- What every allowed access keeps holds after a program that ends. -/
theorem Uses.run_holds {exec : Op → State → ℕ × State} {holds : State → Prop}
    {program : Program Op α} {state after : State} {value : α}
    (h : Uses (fun _ _ ↦ True) allowed program)
    (hexec : ∀ operation, allowed operation → ∀ state, holds state →
      holds (exec operation state).2)
    (hstate : holds state) (hrun : run exec program state = some (value, after)) :
    holds after := by
  induction program generalizing state with
  | done result =>
    cases hrun
    exact hstate
  | access operation next ih => exact ih _ (h.2 _ trivial) (hexec operation h.1 state hstate) hrun
  | await operation next ih =>
    rw [run] at hrun
    split at hrun
    · cases hrun
    · exact ih h.2 (hexec operation h.1 state hstate) hrun
  | diverge => cases hrun

end Uses

/-- An access does not notice that the state was changed: it answers the same and has the same
effect. -/
def Unnoticed (exec : Op → State → ℕ × State) (change : State → State) (operation : Op) : Prop :=
  ∀ state, exec operation (change state) =
    ((exec operation state).1, change (exec operation state).2)

section Unnoticed

variable {exec : Op → State → ℕ × State} {change : State → State} {program : Program Op α}
  {state : State}

/-- A program none of whose accesses notices a change ends as it would without it. -/
theorem run_unnoticed (h : ∀ operation ∈ accesses exec program state,
    Unnoticed exec change operation) :
    run exec program (change state) =
      (run exec program state).map fun result ↦ (result.1, change result.2) := by
  induction program generalizing state with
  | done value => rfl
  | access operation next ih =>
    rw [accesses, List.forall_mem_cons] at h
    rw [run, h.1 state, run]
    exact ih _ h.2
  | await operation next ih =>
    rw [accesses, List.forall_mem_cons] at h
    rw [run, h.1 state, run]
    split
    · rfl
    · next hpass =>
      rw [if_neg hpass] at h
      exact ih h.2
  | diverge => rfl

/-- It also performs the same accesses. -/
theorem accesses_unnoticed (h : ∀ operation ∈ accesses exec program state,
    Unnoticed exec change operation) :
    accesses exec program (change state) = accesses exec program state := by
  induction program generalizing state with
  | done value => rfl
  | access operation next ih =>
    rw [accesses, List.forall_mem_cons] at h
    rw [accesses, h.1 state, accesses]
    exact congrArg (operation :: ·) (ih _ h.2)
  | await operation next ih =>
    rw [accesses, List.forall_mem_cons] at h
    rw [accesses, h.1 state, accesses]
    split
    · rfl
    · next hpass =>
      rw [if_neg hpass] at h
      exact congrArg (operation :: ·) (ih h.2)
  | diverge => rfl

end Unnoticed

end SideHOS.Sharing.Program
