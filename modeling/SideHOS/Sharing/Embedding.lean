import SideHOS.Sharing.Trace

/-!
# Programs over a part of the state

A program over one part of a state is also a program over the whole: `embed` renames its accesses.
Where the renamed accesses act on the part as the original ones do and leave the rest alone, the
embedded program runs as the original one does (`Part.run_embed`).  Where the whole only represents
the state, as memory represents the fields of records, it runs as the original one does as long as
that performs accesses which keep the representation (`Simulates.run_embed`).
-/

namespace SideHOS.Sharing.Program

variable {Op Whole State WholeState α : Type}

def embed (name : Op → Whole) : Program Op α → Program Whole α
  | done value => done value
  | access operation next => access (name operation) fun answer ↦ embed name (next answer)
  | await operation next => await (name operation) (embed name next)
  | diverge => diverge

/-- An embedded program performs renamed accesses only. -/
theorem uses_embed {name : Op → Whole} {answers : Whole → ℕ → Prop} {allowed : Whole → Prop}
    (hallowed : ∀ operation, allowed (name operation)) (program : Program Op α) :
    Uses answers allowed (embed name program) := by
  induction program with
  | done value => trivial
  | access operation next ih => exact ⟨hallowed operation, fun answer _ ↦ ih answer⟩
  | await operation next ih => exact ⟨hallowed operation, ih⟩
  | diverge => trivial

/-- A part of a state which some of the accesses act on. -/
structure Part (exec : Op → State → ℕ × State) (execWhole : Whole → WholeState → ℕ × WholeState)
    (name : Op → Whole) where
  get : WholeState → State
  put : State → WholeState → WholeState
  get_put : ∀ part whole, get (put part whole) = part
  put_put : ∀ part other whole, put part (put other whole) = put part whole
  put_get : ∀ whole, put (get whole) whole = whole
  exec_eq : ∀ operation whole, execWhole (name operation) whole =
    ((exec operation (get whole)).1, put (exec operation (get whole)).2 whole)

variable {exec : Op → State → ℕ × State} {execWhole : Whole → WholeState → ℕ × WholeState}
  {name : Op → Whole}

/-- An embedded program runs on the part and leaves the rest of the state alone. -/
theorem Part.run_embed (part : Part exec execWhole name) (program : Program Op α)
    (whole : WholeState) :
    run execWhole (embed name program) whole =
      (run exec program (part.get whole)).map fun result ↦
        (result.1, part.put result.2 whole) := by
  induction program generalizing whole with
  | done value =>
    change some (value, whole) = some (value, part.put (part.get whole) whole)
    rw [part.put_get]
  | access operation next ih =>
    rw [embed, run, part.exec_eq, ih, part.get_put, run]
    simp only [part.put_put]
  | await operation next ih =>
    rw [embed, run, part.exec_eq, run]
    split
    · rfl
    · rw [ih, part.get_put]
      simp only [part.put_put]
  | diverge => rfl

/-- Where the whole represents the state, an allowed access answers what it may, its renaming
answers the same, and the whole again represents the state. -/
def Simulates (exec : Op → State → ℕ × State) (execWhole : Whole → WholeState → ℕ × WholeState)
    (name : Op → Whole) (represents : State → WholeState → Prop) (answers : Op → ℕ → Prop)
    (allowed : Op → Prop) : Prop :=
  ∀ operation state whole, allowed operation → represents state whole →
    answers operation (exec operation state).1 ∧
      (execWhole (name operation) whole).1 = (exec operation state).1 ∧
      represents (exec operation state).2 (execWhole (name operation) whole).2

/-- An embedded program runs on the whole as the original one does on the state it represents. -/
theorem Simulates.run_embed {represents : State → WholeState → Prop} {answers : Op → ℕ → Prop}
    {allowed : Op → Prop} (h : Simulates exec execWhole name represents answers allowed)
    {program : Program Op α} {state after : State} {whole : WholeState} {value : α}
    (huses : Uses answers allowed program) (hrepresents : represents state whole)
    (hrun : run exec program state = some (value, after)) :
    ∃ wholeAfter, run execWhole (embed name program) whole = some (value, wholeAfter) ∧
      represents after wholeAfter := by
  induction program generalizing state whole with
  | done value' =>
    obtain ⟨rfl, rfl⟩ := Prod.mk.inj (Option.some.inj hrun)
    exact ⟨whole, rfl, hrepresents⟩
  | access operation next ih =>
    obtain ⟨hanswer, heq, hafter⟩ := h operation state whole huses.1 hrepresents
    rw [embed, run, heq]
    exact ih _ (huses.2 _ hanswer) hafter hrun
  | await operation next ih =>
    obtain ⟨-, heq, hafter⟩ := h operation state whole huses.1 hrepresents
    rw [run] at hrun
    rw [embed, run, heq]
    by_cases hzero : (exec operation state).1 = 0
    · rw [if_pos hzero] at hrun
      cases hrun
    · rw [if_neg hzero] at hrun ⊢
      exact ih huses.2 hafter hrun
  | diverge => cases hrun

end SideHOS.Sharing.Program
