import Mathlib.Tactic

/-!
# Programs that access shared state step by step

A `Program Op α` is a sequential program whose only effects are single accesses `Op` to a shared
state; between two accesses it computes on values it has already read.  `await` is a spin loop: it
repeats one access until the access answers a nonzero value.  `diverge` is a loop that never ends.

The meaning of an access is a function `exec : Op → State → ℕ × State`.  `run` executes a program
alone, from start to end; the module on interleavings executes it one access at a time.
-/

namespace SideHOS.Sharing

inductive Program (Op α : Type) where
  | done (value : α)
  | access (operation : Op) (next : ℕ → Program Op α)
  | await (operation : Op) (next : Program Op α)
  | diverge

namespace Program

variable {Op State α β : Type}

/-- Continue with `next` once the first program is done. -/
def bind : Program Op α → (α → Program Op β) → Program Op β
  | done value, next => next value
  | access operation rest, next => access operation fun answer ↦ bind (rest answer) next
  | await operation rest, next => await operation (bind rest next)
  | diverge, _ => diverge

instance : Monad (Program Op) where
  pure := done
  bind := bind

def perform (operation : Op) : Program Op ℕ := access operation done

/-- Run a program alone.  A spin loop whose first try fails never ends, since nobody else changes
the state. -/
def run (exec : Op → State → ℕ × State) : Program Op α → State → Option (α × State)
  | done value, state => some (value, state)
  | access operation next, state =>
      run exec (next (exec operation state).1) (exec operation state).2
  | await operation next, state =>
      if (exec operation state).1 = 0 then none else run exec next (exec operation state).2
  | diverge, _ => none

variable {exec : Op → State → ℕ × State}

@[simp]
theorem run_pure (value : α) (state : State) :
    run exec (pure value : Program Op α) state = some (value, state) := rfl

@[simp]
theorem run_perform (operation : Op) (state : State) :
    run exec (perform operation) state = some (exec operation state) := rfl

theorem run_bind (first : Program Op α) (next : α → Program Op β) (state : State) :
    run exec (first >>= next) state =
      (run exec first state).bind fun result ↦ run exec (next result.1) result.2 := by
  change run exec (bind first next) state = _
  induction first generalizing state with
  | done value => rfl
  | access operation rest ih => exact ih _ _
  | await operation rest ih =>
    simp only [bind, run]
    split
    · rfl
    · exact ih _
  | diverge => rfl

/-- Sequencing after a run that is known. -/
theorem run_bind_of_eq {first : Program Op α} {next : α → Program Op β} {state after : State}
    {value : α} (h : run exec first state = some (value, after)) :
    run exec (first >>= next) state = run exec (next value) after := by
  rw [run_bind, h]
  rfl

@[simp]
theorem run_perform_bind (operation : Op) (next : ℕ → Program Op β) (state : State) :
    run exec (perform operation >>= next) state =
      run exec (next (exec operation state).1) (exec operation state).2 := rfl

theorem run_ite (condition : Prop) [Decidable condition] (first second : Program Op α)
    (state : State) :
    run exec (if condition then first else second) state =
      if condition then run exec first state else run exec second state := by
  split <;> rfl

end Program

end SideHOS.Sharing
