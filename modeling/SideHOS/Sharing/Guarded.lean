import SideHOS.Sharing.Program

/-!
# Accesses behind a guard

A program over one interface becomes a program over another: `guarded` gives each access a name
there, and lets some of them wait for a guard first.  A program that runs among others, or among
changes from outside (`RunAmong`), advances access by access (`Advance`).  `Stage` relates a
program to its guarded form, also between a guard and the access behind it, and `Stage.advance`
says what one access of the guarded form is for the program itself: nothing, or its next access.
-/

namespace SideHOS.Sharing.Program

variable {Op Whole State WholeState α : Type}

inductive Advance (exec : Op → State → ℕ × State) :
    Program Op α → State → Program Op α → State → Prop
  | access (operation : Op) (next : ℕ → Program Op α) (state : State) :
      Advance exec (.access operation next) state (next (exec operation state).1)
        (exec operation state).2
  | spin (operation : Op) (next : Program Op α) (state : State)
      (hfail : (exec operation state).1 = 0) :
      Advance exec (.await operation next) state (.await operation next) (exec operation state).2
  | pass (operation : Op) (next : Program Op α) (state : State)
      (hsuccess : (exec operation state).1 ≠ 0) :
      Advance exec (.await operation next) state next (exec operation state).2

/-- A program runs to its end while the state also changes by itself, and says why. -/
inductive RunAmong {Label : Type} (exec : Op → State → ℕ × State)
    (moves : State → Label → State → Prop) :
    Program Op α → State → List Label → α → State → Prop
  | done (value : α) (state : State) : RunAmong exec moves (.done value) state [] value state
  | advance {program later : Program Op α} {state next final : State} {labels : List Label}
      {value : α} (first : Advance exec program state later next)
      (rest : RunAmong exec moves later next labels value final) :
      RunAmong exec moves program state labels value final
  | moved {program : Program Op α} {state next final : State} {label : Label}
      {labels : List Label} {value : α} (first : moves state label next)
      (rest : RunAmong exec moves program next labels value final) :
      RunAmong exec moves program state (label :: labels) value final

/-- A program that waits for a guard first, if there is one. -/
def behind : Option Op → Program Op α → Program Op α
  | none, program => program
  | some test, program => .await test program

/-- The program with its accesses renamed, each behind its guard. -/
def guarded (guard : Op → Option Whole) (name : Op → Whole) : Program Op α → Program Whole α
  | done value => done value
  | access operation next =>
    behind (guard operation)
      (access (name operation) fun answer ↦ guarded guard name (next answer))
  | await operation next => await (name operation) (guarded guard name next)
  | diverge => diverge

/-- A program and its guarded form, which may have passed the guard of the next access. -/
inductive Stage (guard : Op → Option Whole) (name : Op → Whole) :
    Bool → Program Op α → Program Whole α → Prop
  | before (program : Program Op α) : Stage guard name false program (guarded guard name program)
  | passed (operation : Op) (next : ℕ → Program Op α) (hguard : guard operation ≠ none) :
      Stage guard name true (.access operation next)
        (.access (name operation) fun answer ↦ guarded guard name (next answer))

section Stage

variable {guard : Op → Option Whole} {name : Op → Whole}
  {exec : Whole → WholeState → ℕ × WholeState} {passed : Bool} {program : Program Op α}
  {whole after : Program Whole α} {state next : WholeState}

/-- The guarded form is done when the program is. -/
theorem Stage.done {value : α} (h : Stage guard name passed program (.done value)) :
    program = .done value := by
  generalize hwhole : (Program.done value : Program Whole α) = whole at h
  cases h with
  | passed operation rest => cases hwhole
  | before =>
    cases program with
    | done other =>
      cases hwhole
      rfl
    | access operation rest =>
      rw [guarded] at hwhole
      cases hguard : guard operation with
      | none =>
        rw [hguard] at hwhole
        cases hwhole
      | some test =>
        rw [hguard] at hwhole
        cases hwhole
    | await operation rest => cases hwhole
    | diverge => cases hwhole

/-- What an access of the guarded form is for the program. -/
inductive Advanced (guard : Op → Option Whole) (name : Op → Whole)
    (exec : Whole → WholeState → ℕ × WholeState) (passed : Bool) (state : WholeState) :
    Program Op α → Program Whole α → WholeState → Prop
  | tried (operation : Op) (rest : ℕ → Program Op α) (test : Whole) (later : Bool)
      (after : Program Whole α) (hguard : guard operation = some test)
      (hstage : Stage guard name later (.access operation rest) after)
      (hlater : later = true → (exec test state).1 ≠ 0) :
      Advanced guard name exec passed state (.access operation rest) after (exec test state).2
  | made (operation : Op) (rest : ℕ → Program Op α)
      (hpassed : guard operation ≠ none → passed = true) :
      Advanced guard name exec passed state (.access operation rest)
        (guarded guard name (rest (exec (name operation) state).1)) (exec (name operation) state).2
  | spun (operation : Op) (rest : Program Op α) (hfail : (exec (name operation) state).1 = 0) :
      Advanced guard name exec passed state (.await operation rest)
        (guarded guard name (.await operation rest)) (exec (name operation) state).2
  | left (operation : Op) (rest : Program Op α) (hsuccess : (exec (name operation) state).1 ≠ 0) :
      Advanced guard name exec passed state (.await operation rest) (guarded guard name rest)
        (exec (name operation) state).2

/-- One access of the guarded form. -/
theorem Stage.advance (h : Stage guard name passed program whole)
    (hstep : Advance exec whole state after next) :
    Advanced guard name exec passed state program after next := by
  cases h with
  | passed operation rest hguard =>
    cases hstep with
    | access => exact .made operation rest fun _ ↦ rfl
  | before =>
    cases program with
    | done value => cases hstep
    | diverge => cases hstep
    | await operation rest =>
      cases hstep with
      | spin _ _ _ hfail => exact .spun operation rest hfail
      | pass _ _ _ hsuccess => exact .left operation rest hsuccess
    | access operation rest =>
      rw [guarded] at hstep
      cases hguard : guard operation with
      | none =>
        rw [hguard] at hstep
        cases hstep with
        | access => exact .made operation rest fun hne ↦ absurd hguard hne
      | some test =>
        have hsome : guard operation ≠ none := by
          rw [hguard]
          exact Option.some_ne_none test
        rw [hguard] at hstep
        cases hstep with
        | spin _ _ _ hfail =>
          have hstage : Stage guard name false (.access operation rest)
              (guarded guard name (.access operation rest)) := .before _
          rw [guarded, hguard] at hstage
          exact .tried operation rest test false _ hguard hstage Bool.noConfusion
        | pass _ _ _ hsuccess =>
          exact .tried operation rest test true _ hguard (.passed operation rest hsome)
            fun _ ↦ hsuccess

end Stage

end SideHOS.Sharing.Program
