import Mathlib.Tactic

/-!
# Runs of a labelled transition system

A run lists the transitions it takes, each with the states before and after it, so that
properties of single steps can be asked of every step of a run.  An invariant is proved once for
a step and holds in every state of every run (`Run.invariant`); it may rely on a condition which
all steps of the run meet.
-/

namespace SideHOS.Transition

variable {State Label : Type*}

@[ext]
structure Taken (State Label : Type*) where
  before : State
  label : Label
  after : State

/-- The runs from `start`: the steps taken and the state reached. -/
inductive Run (step : State → Label → State → Prop) (start : State) :
    List (Taken State Label) → State → Prop
  | nil : Run step start [] start
  | snoc {taken : List (Taken State Label)} {before : State} (label : Label) {after : State}
      (earlier : Run step start taken before) (last : step before label after) :
      Run step start (taken ++ [⟨before, label, after⟩]) after

variable {step : State → Label → State → Prop} {start final : State}
  {taken : List (Taken State Label)}

/-- What every step that meets the condition keeps holds at the end of every run whose steps all
meet it. -/
theorem Run.invariant (holds : State → Prop) (condition : Taken State Label → Prop)
    (hstart : holds start)
    (hstep : ∀ before label after, holds before → step before label after →
      condition ⟨before, label, after⟩ → holds after)
    (hrun : Run step start taken final) (hcondition : ∀ t ∈ taken, condition t) : holds final := by
  induction hrun with
  | nil => exact hstart
  | @snoc taken before label after earlier last ih =>
    exact hstep _ _ _ (ih fun t ht ↦ hcondition t (List.mem_append_left _ ht)) last
      (hcondition _ (List.mem_append_right _ (List.mem_singleton_self _)))

/-- A run can be continued by a run from the state it reaches. -/
theorem Run.append {middle : State} {later : List (Taken State Label)}
    (hrun : Run step start taken middle) (hlater : Run step middle later final) :
    Run step start (taken ++ later) final := by
  induction hlater with
  | nil => rwa [List.append_nil]
  | snoc label earlier last ih =>
    rw [← List.append_assoc]
    exact ih.snoc label last

/-- Every step of a run is the last step of one of its prefixes. -/
theorem Run.of_mem {t : Taken State Label} (hrun : Run step start taken final) (ht : t ∈ taken) :
    ∃ earlier, Run step start earlier t.before ∧ step t.before t.label t.after ∧
      (∀ s ∈ earlier, s ∈ taken) := by
  induction hrun with
  | nil => cases ht
  | @snoc taken before label after earlier last ih =>
    rcases List.mem_append.mp ht with ht | ht
    · obtain ⟨prior, hprior, hlast, hsubset⟩ := ih ht
      exact ⟨prior, hprior, hlast, fun s hs ↦ List.mem_append_left _ (hsubset s hs)⟩
    · rw [List.mem_singleton.mp ht]
      exact ⟨taken, earlier, last, fun s hs ↦ List.mem_append_left _ hs⟩

/-- What does not hold at the start and holds at the end was brought about by a step of the run. -/
theorem Run.exists_source (holds : State → Prop) {source : Taken State Label → Prop}
    (hstart : ¬ holds start)
    (hstep : ∀ before label after, step before label after → holds after →
      holds before ∨ source ⟨before, label, after⟩)
    (hrun : Run step start taken final) (hfinal : holds final) : ∃ t ∈ taken, source t := by
  induction hrun with
  | nil => exact absurd hfinal hstart
  | @snoc taken before label after earlier last ih =>
    rcases hstep before label after last hfinal with hbefore | hsource
    · obtain ⟨t, ht, hsource⟩ := ih hbefore
      exact ⟨t, List.mem_append_left _ ht, hsource⟩
    · exact ⟨_, List.mem_append_right _ (List.mem_singleton_self _), hsource⟩

/-- Two conditions that agree on every step taken from a state with the invariant hold of all
steps of the same runs. -/
theorem Run.forall_iff {holds : State → Prop} {condition property : Taken State Label → Prop}
    (hstart : holds start)
    (hstep : ∀ before label after, holds before → step before label after →
      condition ⟨before, label, after⟩ → holds after)
    (hiff : ∀ before label after, holds before → step before label after →
      (condition ⟨before, label, after⟩ ↔ property ⟨before, label, after⟩))
    (hrun : Run step start taken final) :
    (∀ t ∈ taken, condition t) ↔ ∀ t ∈ taken, property t := by
  induction hrun with
  | nil => simp
  | @snoc taken before label after earlier last ih =>
    simp only [List.forall_mem_append, List.forall_mem_singleton, ← ih]
    refine and_congr_right fun hcondition ↦ ?_
    exact hiff _ _ _ (earlier.invariant holds condition hstart hstep hcondition) last

/-- The same for runs whose steps all meet an assumption. -/
theorem Run.forall_iff_of {holds : State → Prop}
    {assumed condition property : Taken State Label → Prop}
    (hstart : holds start)
    (hstep : ∀ before label after, holds before → step before label after →
      assumed ⟨before, label, after⟩ → condition ⟨before, label, after⟩ → holds after)
    (hiff : ∀ before label after, holds before → step before label after →
      assumed ⟨before, label, after⟩ →
        (condition ⟨before, label, after⟩ ↔ property ⟨before, label, after⟩))
    (hrun : Run step start taken final) (hassumed : ∀ t ∈ taken, assumed t) :
    (∀ t ∈ taken, condition t) ↔ ∀ t ∈ taken, property t := by
  have hboth : (∀ t ∈ taken, assumed t ∧ condition t) ↔ ∀ t ∈ taken, assumed t ∧ property t :=
    @Run.forall_iff _ _ _ _ _ _ holds (fun t ↦ assumed t ∧ condition t)
      (fun t ↦ assumed t ∧ property t) hstart
      (fun _ _ _ hholds hlast hmeets ↦ hstep _ _ _ hholds hlast hmeets.1 hmeets.2)
      (fun _ _ _ hholds hlast ↦ and_congr_right (hiff _ _ _ hholds hlast)) hrun
  constructor
  · intro hcondition t ht
    exact (hboth.mp (fun s hs ↦ ⟨hassumed s hs, hcondition s hs⟩) t ht).2
  · intro hproperty t ht
    exact (hboth.mpr (fun s hs ↦ ⟨hassumed s hs, hproperty s hs⟩) t ht).2

end SideHOS.Transition
