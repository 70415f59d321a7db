import Mathlib
import SideHOS.Sharing.Interleaving
import SideHOS.Sharing.Trace
import SideHOS.Transition.Run

/-!
# Resources handed out under a lock

An object behind one lock hands resources to its callers and takes them back, and an owner uses its
resources without the lock, at any time, also while another processor is inside the object.  A
`Custodian` meets its part when, alone and with the lock free, every call it admits ends, hands out
new resources only and performs no access to a resource that stays with its owner.

Then, whatever the interleaving, every resource has one holder, the lock excludes, calls answer as
they would alone, nobody but the owner changes what a resource holds, and the lock can always be
freed again.
-/

namespace SideHOS.Sharing

open Program Transition

variable {Op State Proc Call Result Resource : Type}

/-- The object and its users: the programs of the calls, what a call may be handed and what it
hands out, how an owner may change its resource, and the states that belong to the resources in
use. -/
structure Protocol (Op State Call Result Resource : Type) where
  exec : Op → State → ℕ × State
  body : Call → Program Op Result
  acquire : Op
  release : Op
  held : State → Prop
  admits : Call → State → Prop
  permitted : Call → Option Resource → Prop
  gives : Call → Result → Option Resource
  answers : Call → Result → Prop
  touches : Resource → (State → State) → Prop
  spares : Resource → Op → Prop
  valid : Set Resource → State → Prop

/-- The processors and the resources that are theirs. -/
structure Callers (Op State Proc Call Result Resource : Type) where
  config : Config Op State Proc Call Result
  owned : Set Resource

/-- What happens: a call is made, goes on or ends, or an owner uses its resource. -/
inductive CallerEvent (Proc Call Result Resource : Type) where
  | invoke (proc : Proc) (call : Call) (taken : Option Resource)
  | inside
  | finish (proc : Proc) (call : Call) (result : Result)
  | touch (resource : Resource)

def members (option : Option Resource) : Set Resource := { resource | resource ∈ option }

@[simp]
theorem mem_members {option : Option Resource} {resource : Resource} :
    resource ∈ members option ↔ resource ∈ option := Iff.rfl

@[simp]
theorem members_none : members (none : Option Resource) = ∅ := by
  ext resource
  simp

@[simp]
theorem members_some (resource : Resource) : members (some resource) = {resource} := by
  ext other
  simp [eq_comm]

variable [DecidableEq Proc]

inductive CallerStep (protocol : Protocol Op State Call Result Resource) :
    Callers Op State Proc Call Result Resource → CallerEvent Proc Call Result Resource →
      Callers Op State Proc Call Result Resource → Prop
  | invoke {callers : Callers Op State Proc Call Result Resource} {proc : Proc} {call : Call}
      {taken : Option Resource} (hthread : callers.config.thread proc = .idle)
      (hpermitted : protocol.permitted call taken) (howned : members taken ⊆ callers.owned) :
      CallerStep protocol callers (.invoke proc call taken)
        { config := { callers.config with
            thread := Function.update callers.config.thread proc
              (.running call none (protocol.body call)) }
          owned := callers.owned \ members taken }
  | inside {callers : Callers Op State Proc Call Result Resource}
      {after : Config Op State Proc Call Result}
      (hstep : Internal protocol.exec protocol.body callers.config after) :
      CallerStep protocol callers .inside ⟨after, callers.owned⟩
  | finish {callers : Callers Op State Proc Call Result Resource} {proc : Proc} {call : Call}
      {position : Option ℕ} {result : Result}
      (hthread : callers.config.thread proc = .running call position (.done result)) :
      CallerStep protocol callers (.finish proc call result)
        { config := { callers.config with
            thread := Function.update callers.config.thread proc .idle
            returned := ⟨proc, call, position, result⟩ :: callers.config.returned }
          owned := callers.owned ∪ members (protocol.gives call result) }
  | touch {callers : Callers Op State Proc Call Result Resource} {resource : Resource}
      {change : State → State} (howned : resource ∈ callers.owned)
      (htouch : protocol.touches resource change) :
      CallerStep protocol callers (.touch resource)
        { callers with config := { callers.config with shared := change callers.config.shared } }

/-- The calls that take the lock in this step are admitted. -/
def Admitted (protocol : Protocol Op State Call Result Resource)
    (t : Taken (Callers Op State Proc Call Result Resource)
      (CallerEvent Proc Call Result Resource)) : Prop :=
  ∀ proc call, t.after.config.order = t.before.config.order ++ [(proc, call)] →
    protocol.admits call t.before.config.shared

/-- What an object behind a lock has to guarantee, one call at a time. -/
structure Custodian (protocol : Protocol Op State Call Result Resource) : Prop where
  lock : LockSemantics protocol.exec protocol.acquire protocol.release protocol.held
  sectioned : ∀ call, Sectioned protocol.acquire protocol.release (protocol.body call)
  serve : ∀ {live : Set Resource} {state : State} {call : Call} {taken : Option Resource},
    protocol.valid live state → ¬ protocol.held state → protocol.admits call state →
    protocol.permitted call taken → members taken ⊆ live →
      ∃ result after, run protocol.exec (protocol.body call) state = some (result, after) ∧
        protocol.answers call result ∧
        protocol.valid ((live \ members taken) ∪ members (protocol.gives call result)) after ∧
        Disjoint (members (protocol.gives call result)) live ∧
        ∀ resource ∈ live, resource ∉ taken →
          ∀ operation ∈ accesses protocol.exec (protocol.body call) state,
            protocol.spares resource operation
  touch : ∀ {live state resource change}, protocol.valid live state → resource ∈ live →
    protocol.touches resource change → protocol.valid live (change state)
  touch_held : ∀ {resource change}, protocol.touches resource change →
    ∀ state, protocol.held (change state) ↔ protocol.held state
  unnoticed : ∀ {resource change operation}, protocol.touches resource change →
    protocol.spares resource operation → Unnoticed protocol.exec change operation
  spares_acquire : ∀ resource, protocol.spares resource protocol.acquire

/-! ## Accounts -/

/-- A processor's dealings with the object: none, a call with what it was handed, or an answer that
was not yet taken up. -/
inductive Pending (Call Result Resource : Type) where
  | nothing
  | waiting (call : Call) (taken : Option Resource)
  | ended (call : Call) (result : Result)

/-- The resource on its way between a processor and the object. -/
def Pending.carries (protocol : Protocol Op State Call Result Resource) :
    Pending Call Result Resource → Option Resource
  | .nothing => none
  | .waiting _ taken => taken
  | .ended call result => protocol.gives call result

/-- Every resource in use is owned, or on its way in one call. -/
structure HeldOnce (protocol : Protocol Op State Call Result Resource) (live owned : Set Resource)
    (pending : Proc → Pending Call Result Resource) : Prop where
  mem_iff : ∀ resource, resource ∈ live ↔
    resource ∈ owned ∨ ∃ proc, resource ∈ (pending proc).carries protocol
  not_owned : ∀ proc, ∀ resource ∈ (pending proc).carries protocol, resource ∉ owned
  unique : ∀ first second resource, resource ∈ (pending first).carries protocol →
    resource ∈ (pending second).carries protocol → first = second

section HeldOnce

variable {protocol : Protocol Op State Call Result Resource} {live owned : Set Resource}
  {pending : Proc → Pending Call Result Resource}

omit [DecidableEq Proc] in
theorem HeldOnce.owned_subset (h : HeldOnce protocol live owned pending) : owned ⊆ live :=
  fun resource hresource ↦ (h.mem_iff resource).mpr (Or.inl hresource)

omit [DecidableEq Proc] in
theorem HeldOnce.carried_mem (h : HeldOnce protocol live owned pending) (proc : Proc)
    {resource : Resource} (hcarries : resource ∈ (pending proc).carries protocol) :
    resource ∈ live := (h.mem_iff resource).mpr (Or.inr ⟨proc, hcarries⟩)

/-- One processor's dealings go on: what it owned or carried is replaced, and what the others carry
stays. -/
theorem HeldOnce.move (h : HeldOnce protocol live owned pending) {proc : Proc}
    {next : Pending Call Result Resource} {later ownedLater : Set Resource}
    (hapart : ∀ resource ∈ next.carries protocol, resource ∉ ownedLater)
    (hown : ∀ resource, (resource ∈ ownedLater ∨ resource ∈ next.carries protocol) →
      resource ∈ live → resource ∈ owned ∨ resource ∈ (pending proc).carries protocol)
    (hlater : ∀ resource, resource ∈ later ↔
      (resource ∈ live ∧ resource ∉ owned ∧ resource ∉ (pending proc).carries protocol) ∨
        resource ∈ ownedLater ∨ resource ∈ next.carries protocol) :
    HeldOnce protocol later ownedLater (Function.update pending proc next) := by
  have hother (other : Proc) (hother : other ≠ proc) (resource : Resource)
      (hcarries : resource ∈ (pending other).carries protocol) :
      resource ∉ owned ∧ resource ∉ (pending proc).carries protocol :=
    ⟨h.not_owned other resource hcarries,
      fun hproc ↦ hother (h.unique other proc resource hcarries hproc)⟩
  have hfresh (other : Proc) (hne : other ≠ proc) (resource : Resource)
      (hcarries : resource ∈ (pending other).carries protocol) :
      ¬ (resource ∈ ownedLater ∨ resource ∈ next.carries protocol) := by
    intro hmoved
    have hout := hother other hne resource hcarries
    exact (hown resource hmoved (h.carried_mem other hcarries)).elim hout.1 hout.2
  constructor
  · intro resource
    rw [hlater, h.mem_iff]
    constructor
    · rintro (⟨hmem | ⟨other, hcarries⟩, hnot, hproc⟩ | hmem | hmem)
      · exact absurd hmem hnot
      · have hne : other ≠ proc := by
          rintro rfl
          exact hproc hcarries
        exact Or.inr ⟨other, by rwa [Function.update_of_ne hne]⟩
      · exact Or.inl hmem
      · exact Or.inr ⟨proc, by rwa [Function.update_self]⟩
    · rintro (hmem | ⟨other, hcarries⟩)
      · exact Or.inr (Or.inl hmem)
      · by_cases hne : other = proc
        · subst hne
          rw [Function.update_self] at hcarries
          exact Or.inr (Or.inr hcarries)
        · rw [Function.update_of_ne hne] at hcarries
          exact Or.inl ⟨Or.inr ⟨other, hcarries⟩, hother other hne resource hcarries⟩
  · intro other resource hcarries
    by_cases hne : other = proc
    · subst hne
      rw [Function.update_self] at hcarries
      exact hapart resource hcarries
    · rw [Function.update_of_ne hne] at hcarries
      exact fun hmem ↦ hfresh other hne resource hcarries (Or.inl hmem)
  · intro first second resource hfirst hsecond
    by_cases hfirstProc : first = proc
    · by_cases hsecondProc : second = proc
      · exact hfirstProc.trans hsecondProc.symm
      · rw [hfirstProc, Function.update_self] at hfirst
        rw [Function.update_of_ne hsecondProc] at hsecond
        exact absurd (Or.inr hfirst) (hfresh second hsecondProc resource hsecond)
    · rw [Function.update_of_ne hfirstProc] at hfirst
      by_cases hsecondProc : second = proc
      · rw [hsecondProc, Function.update_self] at hsecond
        exact absurd (Or.inr hsecond) (hfresh first hfirstProc resource hfirst)
      · rw [Function.update_of_ne hsecondProc] at hsecond
        exact h.unique first second resource hfirst hsecond

end HeldOnce

/-! ## The invariant -/

/-- A processor that does not hold the lock is where its dealings say. -/
inductive Resting (protocol : Protocol Op State Call Result Resource) :
    Pending Call Result Resource → Thread Op Call Result → Prop
  | idle : Resting protocol .nothing .idle
  | waiting {call : Call} {taken : Option Resource} (hpermitted : protocol.permitted call taken) :
      Resting protocol (.waiting call taken) (.running call none (protocol.body call))
  | ended {call : Call} {result : Result} (position : Option ℕ)
      (hanswers : protocol.answers call result) :
      Resting protocol (.ended call result) (.running call position (.done result))

/-- The resources in use, the dealings of the processors, and the state of the object once the
present holder of the lock has released it. -/
structure Ledger (State Proc Call Result Resource : Type) where
  live : Set Resource
  pending : Proc → Pending Call Result Resource
  state : State

/-- The holder of the lock ends where the ledger says, and leaves resources alone on its way. -/
structure Holding (protocol : Protocol Op State Call Result Resource)
    (config : Config Op State Proc Call Result) (ledger : Ledger State Proc Call Result Resource)
    (holder : Proc) (call : Call) (result : Result) (rest : Program Op Result) : Prop where
  thread : ∃ position, config.thread holder = .running call (some position) rest
  pending : ledger.pending holder = .ended call result
  answers : protocol.answers call result
  guarded : Guarded protocol.acquire protocol.release rest
  run_eq : run protocol.exec rest config.shared = some (result, ledger.state)
  spares : ∀ resource ∈ ledger.live, resource ∉ protocol.gives call result →
    ∀ operation ∈ accesses protocol.exec rest config.shared, protocol.spares resource operation
  others : ∀ proc, proc ≠ holder → Resting protocol (ledger.pending proc) (config.thread proc)

structure Keeps (protocol : Protocol Op State Call Result Resource)
    (ledger : Ledger State Proc Call Result Resource)
    (callers : Callers Op State Proc Call Result Resource) : Prop where
  valid : protocol.valid ledger.live ledger.state
  free : ¬ protocol.held ledger.state
  heldOnce : HeldOnce protocol ledger.live callers.owned ledger.pending
  returned : ∀ entry ∈ callers.config.returned, protocol.answers entry.call entry.result
  lock : (¬ protocol.held callers.config.shared ∧ callers.config.shared = ledger.state ∧
      ∀ proc, Resting protocol (ledger.pending proc) (callers.config.thread proc)) ∨
    (protocol.held callers.config.shared ∧
      ∃ holder call result rest, Holding protocol callers.config ledger holder call result rest)

section Keeps

variable {protocol : Protocol Op State Call Result Resource}
  {ledger : Ledger State Proc Call Result Resource}
  {callers after : Callers Op State Proc Call Result Resource}
  {event : CallerEvent Proc Call Result Resource} {holder proc : Proc} {call : Call}
  {result : Result} {rest : Program Op Result} {position : Option ℕ}

section Resting

variable {pending : Pending Call Result Resource}

omit [DecidableEq Proc]

/-- An idle processor has no dealings. -/
theorem Resting.pending_idle {thread : Thread Op Call Result}
    (h : Resting protocol pending thread) (hidle : thread = .idle) : pending = .nothing := by
  cases h with
  | idle => rfl
  | waiting _ => cases hidle
  | ended _ _ => cases hidle

/-- A processor in a call either waits for the lock or has its answer. -/
theorem Resting.running (h : Resting protocol pending (.running call position rest)) :
    (∃ taken, pending = .waiting call taken ∧ protocol.permitted call taken ∧ position = none ∧
        rest = protocol.body call) ∨
      ∃ answer, pending = .ended call answer ∧ rest = .done answer ∧
        protocol.answers call answer := by
  cases h with
  | @waiting call taken hpermitted => exact Or.inl ⟨taken, rfl, hpermitted, rfl, rfl⟩
  | @ended call answer position hanswers => exact Or.inr ⟨answer, rfl, rfl, hanswers⟩

theorem Resting.not_access (hcustodian : Custodian protocol) {operation : Op}
    {next : ℕ → Program Op Result} :
    ¬ Resting protocol pending (.running call position (.access operation next)) := by
  intro h
  rcases h.running with ⟨taken, -, -, -, hbody⟩ | ⟨answer, -, hdone, -⟩
  · obtain ⟨section', hsection, -⟩ := hcustodian.sectioned call
    cases hbody.trans hsection
  · cases hdone

theorem Resting.await (hcustodian : Custodian protocol) {operation : Op}
    {next : Program Op Result}
    (h : Resting protocol pending (.running call position (.await operation next))) :
    operation = protocol.acquire ∧ protocol.body call = .await protocol.acquire next ∧
      ∃ taken, pending = .waiting call taken ∧ protocol.permitted call taken := by
  rcases h.running with ⟨taken, hpending, hpermitted, -, hbody⟩ | ⟨answer, -, hdone, -⟩
  · obtain ⟨section', hsection, -⟩ := hcustodian.sectioned call
    obtain ⟨rfl, rfl⟩ := Program.await.inj (hbody.trans hsection)
    exact ⟨rfl, hsection, taken, hpending, hpermitted⟩
  · cases hdone

theorem Resting.done (hcustodian : Custodian protocol)
    (h : Resting protocol pending (.running call position (.done result))) :
    pending = .ended call result ∧ protocol.answers call result := by
  rcases h.running with ⟨taken, -, -, -, hbody⟩ | ⟨answer, hpending, hdone, hanswers⟩
  · obtain ⟨section', hsection, -⟩ := hcustodian.sectioned call
    cases hbody.trans hsection
  · cases hdone
    exact ⟨hpending, hanswers⟩

/-- A resting processor is not in its section. -/
theorem Resting.not_inSection {thread : Thread Op Call Result}
    (h : Resting protocol pending thread) : ¬ InSection thread := by
  rintro ⟨call, position, rest, rfl, hrest⟩
  rcases h.running with ⟨taken, -, -, hposition, -⟩ | ⟨answer, -, hdone, -⟩
  · cases hposition
  · exact hrest answer hdone

end Resting

section Holding

variable {config : Config Op State Proc Call Result}

omit [DecidableEq Proc] in
/-- The holder is in its section. -/
theorem Holding.inSection (h : Holding protocol config ledger holder call result rest) :
    InSection (config.thread holder) := by
  obtain ⟨position, hthread⟩ := h.thread
  refine ⟨call, position, rest, hthread, ?_⟩
  rintro value rfl
  exact h.guarded

omit [DecidableEq Proc] in
theorem Holding.not_resting (h : Holding protocol config ledger holder call result rest) :
    ¬ Resting protocol (ledger.pending holder) (config.thread holder) :=
  fun hresting ↦ hresting.not_inSection h.inSection

omit [DecidableEq Proc] in
/-- Every processor is where its dealings say, or it is the holder. -/
theorem Keeps.resting_or_holding (h : Keeps protocol ledger callers) (proc : Proc) :
    Resting protocol (ledger.pending proc) (callers.config.thread proc) ∨
      (protocol.held callers.config.shared ∧
        ∃ call result rest, Holding protocol callers.config ledger proc call result rest) := by
  rcases h.lock with ⟨-, -, hresting⟩ | ⟨hheld, holder, call, result, rest, hholding⟩
  · exact Or.inl (hresting proc)
  · by_cases hne : proc = holder
    · subst hne
      exact Or.inr ⟨hheld, call, result, rest, hholding⟩
    · exact Or.inl (hholding.others proc hne)

omit [DecidableEq Proc] in
/-- A processor that spins or has its answer does not hold the lock. -/
theorem Keeps.resting_of_not_guarded (h : Keeps protocol ledger callers)
    (hthread : callers.config.thread proc = .running call position rest)
    (hrest : ¬ Guarded protocol.acquire protocol.release rest) :
    Resting protocol (ledger.pending proc) (.running call position rest) := by
  rw [← hthread]
  rcases h.resting_or_holding proc with hresting | ⟨-, holderCall, answer, section', hholding⟩
  · exact hresting
  · obtain ⟨index, hrunning⟩ := hholding.thread
    rw [hthread] at hrunning
    obtain ⟨-, -, rfl⟩ := Thread.running.inj hrunning
    exact absurd hholding.guarded hrest

omit [DecidableEq Proc] in
/-- A processor that is at an access is the holder. -/
theorem Keeps.holding_of_access (h : Keeps protocol ledger callers)
    (hcustodian : Custodian protocol) {operation : Op} {next : ℕ → Program Op Result}
    (hthread : callers.config.thread proc = .running call position (.access operation next)) :
    protocol.held callers.config.shared ∧ ∃ result,
      Holding protocol callers.config ledger proc call result (.access operation next) := by
  rcases h.resting_or_holding proc with hresting | ⟨hheld, holderCall, answer, rest, hholding⟩
  · rw [hthread] at hresting
    exact absurd hresting (Resting.not_access hcustodian)
  · obtain ⟨index, hrunning⟩ := hholding.thread
    rw [hthread] at hrunning
    obtain ⟨rfl, -, rfl⟩ := Thread.running.inj hrunning
    exact ⟨hheld, answer, hholding⟩

omit [DecidableEq Proc] in
/-- The holder performs no access to an owned resource. -/
theorem Keeps.spares_owned (h : Keeps protocol ledger callers)
    (hholding : Holding protocol callers.config ledger holder call result rest)
    {resource : Resource} (howned : resource ∈ callers.owned) :
    ∀ operation ∈ accesses protocol.exec rest callers.config.shared,
      protocol.spares resource operation := by
  apply hholding.spares resource (h.heldOnce.owned_subset howned)
  intro hgives
  refine h.heldOnce.not_owned holder resource ?_ howned
  rwa [hholding.pending]

theorem resting_update {pending : Proc → Pending Call Result Resource}
    {threads : Proc → Thread Op Call Result} {next : Pending Call Result Resource}
    {thread : Thread Op Call Result} (P : Proc → Prop) (hnext : Resting protocol next thread)
    (hothers : ∀ other, P other → Resting protocol (pending other) (threads other)) :
    ∀ other, P other → Resting protocol (Function.update pending proc next other)
      (Function.update threads proc thread other) := by
  intro other hother
  by_cases hne : other = proc
  · subst hne
    rwa [Function.update_self, Function.update_self]
  · rw [Function.update_of_ne hne, Function.update_of_ne hne]
    exact hothers other hother

/-- A resting processor goes on to another resting point, without an access. -/
theorem Keeps.settle (h : Keeps protocol ledger callers)
    (hresting : Resting protocol (ledger.pending proc) (callers.config.thread proc))
    {next : Pending Call Result Resource} {thread : Thread Op Call Result}
    (hnext : Resting protocol next thread) {owned : Set Resource}
    {returned : List (Returned Proc Call Result)}
    (honce : HeldOnce protocol ledger.live owned
      (Function.update ledger.pending proc next))
    (hreturned : ∀ entry ∈ returned, protocol.answers entry.call entry.result) :
    Keeps protocol ⟨ledger.live, Function.update ledger.pending proc next, ledger.state⟩
      { config := { callers.config with
          thread := Function.update callers.config.thread proc thread
          returned := returned }
        owned := owned } := by
  refine ⟨h.valid, h.free, honce, hreturned, ?_⟩
  rcases h.lock with ⟨hfree, hshared, hothers⟩ | ⟨hheld, holder, call, result, rest, hholding⟩
  · exact Or.inl ⟨hfree, hshared, fun other ↦
      resting_update (fun _ ↦ True) hnext (fun other _ ↦ hothers other) other trivial⟩
  · have hne : holder ≠ proc := by
      rintro rfl
      exact hholding.not_resting hresting
    obtain ⟨position, hthread⟩ := hholding.thread
    exact Or.inr ⟨hheld, holder, call, result, rest, {
      thread := ⟨position, (Function.update_of_ne hne ..).trans hthread⟩
      pending := (Function.update_of_ne hne ..).trans hholding.pending
      answers := hholding.answers
      guarded := hholding.guarded
      run_eq := hholding.run_eq
      spares := hholding.spares
      others := resting_update (fun other ↦ other ≠ holder) hnext hholding.others }⟩

end Holding

/-- A call is made: what it is handed goes from the owners to the call. -/
theorem Keeps.invoke (h : Keeps protocol ledger callers) {taken : Option Resource}
    (hthread : callers.config.thread proc = .idle) (hpermitted : protocol.permitted call taken)
    (howned : members taken ⊆ callers.owned) :
    Keeps protocol ⟨ledger.live, Function.update ledger.pending proc (.waiting call taken),
        ledger.state⟩
      { config := { callers.config with
          thread := Function.update callers.config.thread proc
            (.running call none (protocol.body call)) }
        owned := callers.owned \ members taken } := by
  have hresting : Resting protocol (ledger.pending proc) (callers.config.thread proc) := by
    refine (h.resting_or_holding proc).resolve_right ?_
    rintro ⟨-, holderCall, answer, rest, hholding⟩
    obtain ⟨position, hrunning⟩ := hholding.thread
    rw [hthread] at hrunning
    cases hrunning
  have hpending := hresting.pending_idle hthread
  refine h.settle hresting (.waiting hpermitted) (h.heldOnce.move
    (fun resource htaken hmem ↦ hmem.2 htaken)
    (fun resource hmoved _ ↦ Or.inl (hmoved.elim (fun hmem ↦ hmem.1) fun htaken ↦ howned htaken))
    fun resource ↦ ?_) h.returned
  have hsubset (hmem : resource ∈ callers.owned) := h.heldOnce.owned_subset hmem
  have htaken : resource ∈ taken → resource ∈ callers.owned := fun hmem ↦ howned hmem
  simp only [Set.mem_sdiff, mem_members, Pending.carries, hpending]
  tauto

/-- A call ends: what it gives goes to the owners. -/
theorem Keeps.finish (h : Keeps protocol ledger callers) (hcustodian : Custodian protocol)
    (hthread : callers.config.thread proc = .running call position (.done result)) :
    Keeps protocol ⟨ledger.live, Function.update ledger.pending proc .nothing, ledger.state⟩
      { config := { callers.config with
          thread := Function.update callers.config.thread proc .idle
          returned := ⟨proc, call, position, result⟩ :: callers.config.returned }
        owned := callers.owned ∪ members (protocol.gives call result) } := by
  have hresting := h.resting_of_not_guarded hthread id
  obtain ⟨hpending, hanswers⟩ := hresting.done hcustodian
  rw [← hthread] at hresting
  refine h.settle hresting .idle (h.heldOnce.move (fun resource hnothing ↦ by cases hnothing)
    (fun resource hmoved _ ↦ ?_) fun resource ↦ ?_)
    (List.forall_mem_cons.mpr ⟨hanswers, h.returned⟩)
  · rw [hpending]
    exact hmoved.elim id fun hnothing ↦ by cases hnothing
  · have hcarried (hmem : resource ∈ (ledger.pending proc).carries protocol) :=
      h.heldOnce.carried_mem proc hmem
    have hsubset (hmem : resource ∈ callers.owned) := h.heldOnce.owned_subset hmem
    rw [hpending] at hcarried ⊢
    simp only [Set.mem_union, mem_members, Pending.carries, Option.mem_def, reduceCtorEq]
      at hcarried ⊢
    tauto

omit [DecidableEq Proc] in
/-- An owner uses its resource, whether the lock is held or not. -/
theorem Keeps.touch (h : Keeps protocol ledger callers) (hcustodian : Custodian protocol)
    {resource : Resource} {change : State → State} (howned : resource ∈ callers.owned)
    (htouch : protocol.touches resource change) :
    Keeps protocol ⟨ledger.live, ledger.pending, change ledger.state⟩
      { callers with
        config := { callers.config with shared := change callers.config.shared } } := by
  have hlive := h.heldOnce.owned_subset howned
  refine ⟨hcustodian.touch h.valid hlive htouch,
    fun hheld ↦ h.free ((hcustodian.touch_held htouch _).mp hheld), h.heldOnce, h.returned, ?_⟩
  rcases h.lock with ⟨hfree, hshared, hresting⟩ | ⟨hheld, holder, call, answer, rest, hholding⟩
  · exact Or.inl ⟨fun hheld ↦ hfree ((hcustodian.touch_held htouch _).mp hheld),
      congrArg change hshared, hresting⟩
  · have hunnoticed : ∀ operation ∈ accesses protocol.exec rest callers.config.shared,
        Unnoticed protocol.exec change operation := fun operation hoperation ↦
      hcustodian.unnoticed htouch (h.spares_owned hholding howned operation hoperation)
    refine Or.inr ⟨(hcustodian.touch_held htouch _).mpr hheld, holder, call, answer, rest, {
      thread := hholding.thread
      pending := hholding.pending
      answers := hholding.answers
      guarded := hholding.guarded
      run_eq := ?_
      spares := ?_
      others := hholding.others }⟩
    · change run protocol.exec rest (change callers.config.shared) = _
      rw [run_unnoticed hunnoticed, hholding.run_eq]
      rfl
    · change ∀ other ∈ ledger.live, other ∉ protocol.gives call answer →
        ∀ operation ∈ accesses protocol.exec rest (change callers.config.shared), _
      rw [accesses_unnoticed hunnoticed]
      exact hholding.spares

/-- An access is the holder's: it goes on in its section, or releases the lock and has answered. -/
theorem Keeps.access (h : Keeps protocol ledger callers) (hcustodian : Custodian protocol)
    {operation : Op} {next : ℕ → Program Op Result}
    (hthread : callers.config.thread proc = .running call position (.access operation next)) :
    Keeps protocol ledger
      { callers with
        config := { callers.config with
          shared := (protocol.exec operation callers.config.shared).2
          thread := Function.update callers.config.thread proc
            (.running call position
              (next (protocol.exec operation callers.config.shared).1)) } } := by
  obtain ⟨hheld, answer, hholding⟩ := h.holding_of_access hcustodian hthread
  have hrun := hholding.run_eq
  rw [run] at hrun
  refine ⟨h.valid, h.free, h.heldOnce, h.returned, ?_⟩
  rcases hholding.guarded with ⟨rfl, hdone⟩ | ⟨hacquire, hrelease, hguarded⟩
  · obtain ⟨value, hvalue⟩ := hdone (protocol.exec protocol.release callers.config.shared).1
    rw [hvalue] at hrun ⊢
    obtain ⟨rfl, hstate⟩ := Prod.mk.inj (Option.some.inj hrun)
    refine Or.inl ⟨hcustodian.lock.release_free _, hstate, fun other ↦ ?_⟩
    by_cases hother : other = proc
    · subst hother
      dsimp only
      rw [Function.update_self, hholding.pending]
      exact .ended _ hholding.answers
    · dsimp only
      rw [Function.update_of_ne hother]
      exact hholding.others other hother
  · obtain ⟨index, hrunning⟩ := hholding.thread
    have hposition : position = some index := by
      rw [hthread] at hrunning
      exact (Thread.running.inj hrunning).2.1
    subst hposition
    have hspares := hholding.spares
    rw [accesses] at hspares
    exact Or.inr ⟨(hcustodian.lock.other operation hacquire hrelease _).mpr hheld, proc, call,
      answer, _, {
        thread := ⟨index, Function.update_self ..⟩
        pending := hholding.pending
        answers := hholding.answers
        guarded := hguarded _
        run_eq := hrun
        spares := fun resource hlive hgives later hlater ↦
          hspares resource hlive hgives later (List.mem_cons_of_mem _ hlater)
        others := fun other hother ↦ by
          dsimp only
          rw [Function.update_of_ne hother]
          exact hholding.others other hother }⟩

omit [DecidableEq Proc] in
/-- A processor at a spin loop waits for the lock. -/
theorem Keeps.waiting (h : Keeps protocol ledger callers) (hcustodian : Custodian protocol)
    {operation : Op} {next : Program Op Result}
    (hthread : callers.config.thread proc = .running call position (.await operation next)) :
    operation = protocol.acquire ∧ protocol.body call = .await protocol.acquire next ∧
      ∃ taken, ledger.pending proc = .waiting call taken ∧ protocol.permitted call taken ∧
        members taken ⊆ ledger.live := by
  obtain ⟨hoperation, hbody, taken, hpending, hpermitted⟩ :=
    (h.resting_of_not_guarded hthread id).await hcustodian
  refine ⟨hoperation, hbody, taken, hpending, hpermitted, fun resource hmem ↦ ?_⟩
  refine h.heldOnce.carried_mem proc ?_
  rw [hpending]
  exact hmem

/-- A waiting processor takes the free lock: the ledger enters what its call will have done. -/
theorem Keeps.pass (h : Keeps protocol ledger callers) (hcustodian : Custodian protocol)
    {operation : Op} {next : Program Op Result}
    (hthread : callers.config.thread proc = .running call position (.await operation next))
    (hsuccess : (protocol.exec operation callers.config.shared).1 ≠ 0)
    (hadmits : protocol.admits call callers.config.shared) :
    ∃ later, Keeps protocol later
      { callers with
        config := { callers.config with
          shared := (protocol.exec operation callers.config.shared).2
          thread := Function.update callers.config.thread proc
            (.running call (some callers.config.order.length) next)
          order := callers.config.order ++ [(proc, call)] } } := by
  obtain ⟨rfl, hbody, taken, hpending, hpermitted, htaken⟩ := h.waiting hcustodian hthread
  rcases h.lock with ⟨hfree, hshared, hresting⟩ | ⟨hheld, -⟩
  swap
  · rw [hcustodian.lock.acquire_held _ hheld] at hsuccess
    exact absurd rfl hsuccess
  obtain ⟨result, after, hrun, hanswers, hvalid, hnew, hspares⟩ :=
    hcustodian.serve h.valid h.free (hshared ▸ hadmits) hpermitted htaken
  have hafter := run_sectioned hcustodian.lock (hcustodian.sectioned call) hrun
  obtain ⟨section', hsection, hguarded⟩ := hcustodian.sectioned call
  obtain ⟨-, rfl⟩ := Program.await.inj (hsection.symm.trans hbody)
  rw [← hshared] at hrun hspares
  rw [hbody, run, if_neg hsuccess] at hrun
  simp only [hbody, accesses, if_neg hsuccess, List.forall_mem_cons] at hspares
  refine ⟨⟨_, Function.update ledger.pending proc (.ended call result), after⟩, hvalid, hafter,
    h.heldOnce.move (fun resource hgives howned ↦ ?_) (fun resource hmoved hlive ↦ ?_)
      (fun resource ↦ ?_), h.returned, Or.inr ⟨(hcustodian.lock.acquire_free _ hfree).2, proc, call,
        result, section', ?_⟩⟩
  · exact Set.disjoint_left.mp hnew hgives (h.heldOnce.owned_subset howned)
  · exact hmoved.elim Or.inl fun hgives ↦ absurd hlive (Set.disjoint_left.mp hnew hgives)
  · have hsubset (hmem : resource ∈ callers.owned) := h.heldOnce.owned_subset hmem
    have hnot := h.heldOnce.not_owned proc resource
    rw [hpending] at hnot ⊢
    simp only [Set.mem_union, Set.mem_sdiff, mem_members, Pending.carries] at hnot ⊢
    tauto
  · exact {
      thread := ⟨_, Function.update_self ..⟩
      pending := Function.update_self ..
      answers := hanswers
      guarded := hguarded
      run_eq := hrun
      spares := fun resource hmem hgives operation hoperation ↦ by
        obtain ⟨hlive, hnot⟩ := hmem.resolve_right hgives
        exact (hspares resource hlive hnot).2 operation hoperation
      others := fun other hother ↦ by
        dsimp only
        rw [Function.update_of_ne hother, Function.update_of_ne hother]
        exact hresting other }

/-- The ledger is kept through every step in which the lock goes to an admitted call. -/
theorem Keeps.step (h : Keeps protocol ledger callers) (hcustodian : Custodian protocol)
    (hstep : CallerStep protocol callers event after)
    (hadmitted : Admitted protocol ⟨callers, event, after⟩) :
    ∃ later, Keeps protocol later after := by
  cases hstep with
  | invoke hthread hpermitted howned => exact ⟨_, h.invoke hthread hpermitted howned⟩
  | finish hthread => exact ⟨_, h.finish hcustodian hthread⟩
  | touch howned htouch => exact ⟨_, h.touch hcustodian howned htouch⟩
  | inside hinternal =>
    obtain ⟨hstep, hidle⟩ := hinternal
    cases hstep with
    | invoke proc call hthread =>
      have hafter := (hidle proc).mp hthread
      dsimp only at hafter
      rw [Function.update_self] at hafter
      cases hafter
    | finish proc call position result hthread =>
      have hbefore := (hidle proc).mpr (Function.update_self ..)
      rw [hthread] at hbefore
      cases hbefore
    | access proc call position operation next hthread =>
      exact ⟨ledger, h.access hcustodian hthread⟩
    | spin proc call position operation next hthread hfail =>
      obtain ⟨rfl, -⟩ := h.waiting hcustodian hthread
      have hheld : protocol.held callers.config.shared := by
        by_contra hfree
        exact (hcustodian.lock.acquire_free _ hfree).1 hfail
      rw [hcustodian.lock.acquire_held _ hheld]
      exact ⟨ledger, h⟩
    | pass proc call position operation next hthread hsuccess =>
      exact h.pass hcustodian hthread hsuccess (hadmitted proc call rfl)
    | diverge proc call position hthread => exact ⟨ledger, h⟩

omit [DecidableEq Proc] in
theorem keeps_initial {state : State} (hvalid : protocol.valid ∅ state)
    (hfree : ¬ protocol.held state) :
    Keeps protocol ⟨∅, fun _ : Proc ↦ .nothing, state⟩ ⟨initial state, ∅⟩ where
  valid := hvalid
  free := hfree
  heldOnce := by constructor <;> simp [Pending.carries]
  returned := by simp [initial]
  lock := Or.inl ⟨hfree, rfl, fun _ ↦ .idle⟩

/-- There is a true ledger in every state of every run in which the lock goes to admitted calls. -/
theorem keeps_of_run {state : State} {final : Callers Op State Proc Call Result Resource}
    {taken : List (Taken (Callers Op State Proc Call Result Resource)
      (CallerEvent Proc Call Result Resource))} (hcustodian : Custodian protocol)
    (hvalid : protocol.valid ∅ state) (hfree : ¬ protocol.held state)
    (hrun : Run (CallerStep protocol) ⟨initial state, ∅⟩ taken final)
    (hadmitted : ∀ t ∈ taken, Admitted protocol t) : ∃ ledger, Keeps protocol ledger final := by
  refine hrun.invariant (fun callers ↦ ∃ ledger, Keeps protocol ledger callers)
    (Admitted protocol) ⟨_, keeps_initial hvalid hfree⟩ ?_ hadmitted
  rintro before event after ⟨ledger, hledger⟩ hstep hcondition
  exact hledger.step hcustodian hstep hcondition

/-! ## Calls that nobody interrupts -/

section Alone

variable {start : Callers Op State Proc Call Result Resource}
  {taken : List (Taken (Callers Op State Proc Call Result Resource)
    (CallerEvent Proc Call Result Resource))} {config : Config Op State Proc Call Result}
  {owned : Set Resource} {handed : Option Resource} {state : State}

omit [DecidableEq Proc] in
/-- A step in which nobody takes the lock is admitted. -/
theorem admitted_of_order_eq {t : Taken (Callers Op State Proc Call Result Resource)
    (CallerEvent Proc Call Result Resource)}
    (horder : t.after.config.order = t.before.config.order) : Admitted protocol t := by
  intro proc call hgrown
  rw [horder] at hgrown
  exact absurd hgrown (by simp)

/-- Inside calls the order of those that took the lock only grows. -/
theorem earlier_order {exec : Op → State → ℕ × State} {body : Call → Program Op Result}
    {after : Config Op State Proc Call Result}
    (hsteps : Relation.ReflTransGen (Internal exec body) config after) :
    config.order <+: after.order := by
  induction hsteps with
  | refl => exact List.prefix_rfl
  | tail _ hlast ih =>
    rcases hlast.order with hsame | ⟨proc, call, -, -, -, -, -, -, hgrown⟩
    · rwa [hsame]
    · rw [hgrown]
      exact ih.trans (List.prefix_append _ _)

/-- Steps inside calls in which nobody takes the lock continue a run. -/
theorem exists_run_inside {after : Config Op State Proc Call Result}
    (hrun : Run (CallerStep protocol) start taken ⟨config, owned⟩)
    (hadmitted : ∀ t ∈ taken, Admitted protocol t)
    (hsteps : Relation.ReflTransGen (Internal protocol.exec protocol.body) config after)
    (horder : after.order = config.order) :
    ∃ later, Run (CallerStep protocol) start later ⟨after, owned⟩ ∧
      ∀ t ∈ later, Admitted protocol t := by
  induction hsteps with
  | refl => exact ⟨taken, hrun, hadmitted⟩
  | @tail middle after hearlier hlast ih =>
    have hmiddle : middle.order = config.order := by
      refine ((earlier_order hearlier).eq_of_length_le ?_).symm
      rw [← horder]
      exact (earlier_order (.single hlast)).length_le
    obtain ⟨later, hlater, hall⟩ := ih hmiddle
    refine ⟨_, hlater.snoc .inside (.inside hlast), ?_⟩
    rw [List.forall_mem_append, List.forall_mem_singleton]
    exact ⟨hall, admitted_of_order_eq (horder.trans hmiddle.symm)⟩

/-- A call that nobody interrupts is made, admitted and answered as alone. -/
theorem exists_run_alone (hcustodian : Custodian protocol)
    (hrun : Run (CallerStep protocol) start taken ⟨config, owned⟩)
    (hadmitted : ∀ t ∈ taken, Admitted protocol t) (hidle : config.thread proc = .idle)
    (hpermitted : protocol.permitted call handed) (howned : members handed ⊆ owned)
    (hadmits : protocol.admits call config.shared)
    (hbody : run protocol.exec (protocol.body call) config.shared = some (result, state)) :
    ∃ later, Run (CallerStep protocol) start later
        ⟨{ shared := state
           thread := config.thread
           order := config.order ++ [(proc, call)]
           returned := ⟨proc, call, some config.order.length, result⟩ :: config.returned },
          (owned \ members handed) ∪ members (protocol.gives call result)⟩ ∧
      ∀ t ∈ later, Admitted protocol t := by
  obtain ⟨rest, hrest, hguarded⟩ := hcustodian.sectioned call
  rw [hrest] at hbody
  have hsuccess : (protocol.exec protocol.acquire config.shared).1 ≠ 0 := by
    intro hzero
    simp [run, hzero] at hbody
  rw [run, if_neg hsuccess] at hbody
  have hinvoked := hrun.snoc _ (CallerStep.invoke hidle hpermitted howned)
  have hpass : Step protocol.exec protocol.body _ _ := Step.pass
    { config with
      thread := Function.update config.thread proc (.running call none (protocol.body call)) }
    proc call none protocol.acquire rest ((Function.update_self ..).trans (by rw [hrest])) hsuccess
  have hpassed := hinvoked.snoc .inside
    (.inside (internal_of_step hpass (Function.update_self ..) rfl))
  simp only [Function.update_idem] at hpassed
  obtain ⟨later, hlater, hall⟩ := exists_run_inside hpassed (by
    simp only [List.forall_mem_append, List.forall_mem_singleton]
    refine ⟨⟨hadmitted, admitted_of_order_eq rfl⟩, fun other called horder ↦ ?_⟩
    obtain ⟨-, rfl⟩ := Prod.mk.inj (List.singleton_inj.mp (List.append_cancel_left horder))
    exact hadmits) (internal_guarded _ (Function.update_self ..) hguarded hbody) rfl
  have hfinished := hlater.snoc _ (.finish (Function.update_self ..))
  have hthread : Function.update config.thread proc .idle = config.thread := by
    rw [← hidle, Function.update_eq_self]
  simp only [Function.update_idem, hthread] at hfinished
  refine ⟨_, hfinished, ?_⟩
  rw [List.forall_mem_append, List.forall_mem_singleton]
  exact ⟨hall, admitted_of_order_eq rfl⟩

end Alone

/-! ## What follows for the callers -/

omit [DecidableEq Proc] in
/-- Sections exclude one another, and the lock is held exactly while one runs. -/
theorem Keeps.exclusive (h : Keeps protocol ledger callers) :
    (∀ first second, InSection (callers.config.thread first) →
        InSection (callers.config.thread second) → first = second) ∧
      (protocol.held callers.config.shared ↔ ∃ proc, InSection (callers.config.thread proc)) := by
  rcases h.lock with ⟨hfree, -, hresting⟩ | ⟨hheld, holder, call, result, rest, hholding⟩
  · refine ⟨fun first second hfirst _ ↦ absurd hfirst (hresting first).not_inSection,
      fun hheld ↦ absurd hheld hfree, ?_⟩
    rintro ⟨proc, hsection⟩
    exact absurd hsection (hresting proc).not_inSection
  · have honly (proc : Proc) (hsection : InSection (callers.config.thread proc)) :
        proc = holder := by
      by_contra hne
      exact (hholding.others proc hne).not_inSection hsection
    exact ⟨fun first second hfirst hsecond ↦ (honly first hfirst).trans (honly second hsecond).symm,
      fun _ ↦ ⟨holder, hholding.inSection⟩, fun _ ↦ hheld⟩

omit [DecidableEq Proc] in
/-- An access that a processor is about to perform spares every owned resource. -/
theorem Keeps.spares_access (h : Keeps protocol ledger callers) (hcustodian : Custodian protocol)
    {operation : Op} {next : ℕ → Program Op Result} {resource : Resource}
    (hthread : callers.config.thread proc = .running call position (.access operation next))
    (howned : resource ∈ callers.owned) : protocol.spares resource operation := by
  obtain ⟨-, answer, hholding⟩ := h.holding_of_access hcustodian hthread
  exact h.spares_owned hholding howned operation List.mem_cons_self

/-- What a resource holds is changed by its owner alone. -/
theorem Keeps.view_eq {View : Type} (view : Resource → State → View)
    (h : Keeps protocol ledger callers) (hcustodian : Custodian protocol)
    (hspares : ∀ resource operation state, protocol.spares resource operation →
      view resource (protocol.exec operation state).2 = view resource state)
    (htouches : ∀ resource other change state, resource ∈ ledger.live → other ∈ ledger.live →
      resource ≠ other → protocol.touches other change →
        view resource (change state) = view resource state)
    (hstep : CallerStep protocol callers event after) {resource : Resource}
    (howned : resource ∈ callers.owned) (hevent : event ≠ .touch resource) :
    view resource after.config.shared = view resource callers.config.shared := by
  cases hstep with
  | invoke hthread hpermitted htaken => rfl
  | finish hthread => rfl
  | touch hother htouch =>
    refine htouches resource _ _ _ (h.heldOnce.owned_subset howned)
      (h.heldOnce.owned_subset hother) ?_ htouch
    rintro rfl
    exact hevent rfl
  | inside hinternal =>
    obtain ⟨hstep, -⟩ := hinternal
    cases hstep with
    | invoke proc call hthread => rfl
    | finish proc call position result hthread => rfl
    | access proc call position operation next hthread =>
      exact hspares _ _ _ (h.spares_access hcustodian hthread howned)
    | spin proc call position operation next hthread hfail =>
      obtain ⟨rfl, -⟩ := h.waiting hcustodian hthread
      exact hspares _ _ _ (hcustodian.spares_acquire resource)
    | pass proc call position operation next hthread hsuccess =>
      obtain ⟨rfl, -⟩ := h.waiting hcustodian hthread
      exact hspares _ _ _ (hcustodian.spares_acquire resource)
    | diverge proc call position hthread => rfl

/-- The holder of the lock releases it without help, and the others wait where they are. -/
theorem Keeps.exists_free (h : Keeps protocol ledger callers) :
    ∃ free, Relation.ReflTransGen (Internal protocol.exec protocol.body) callers.config free ∧
      Keeps protocol ledger { callers with config := free } ∧ ¬ protocol.held free.shared ∧
      ∀ proc, ¬ InSection (callers.config.thread proc) →
        free.thread proc = callers.config.thread proc := by
  rcases h.lock with ⟨hfree, -⟩ | ⟨-, holder, call, result, rest, hholding⟩
  · exact ⟨callers.config, .refl, h, hfree, fun _ _ ↦ rfl⟩
  · obtain ⟨position, hthread⟩ := hholding.thread
    have hsteps : Relation.ReflTransGen (Internal protocol.exec protocol.body) _ _ :=
      internal_guarded callers.config hthread hholding.guarded hholding.run_eq
    refine ⟨_, hsteps, ⟨h.valid, h.free, h.heldOnce, h.returned, Or.inl ⟨h.free, rfl, ?_⟩⟩, h.free,
      fun proc hproc ↦ ?_⟩
    · refine fun proc ↦ ?_
      dsimp only
      by_cases hne : proc = holder
      · subst hne
        rw [Function.update_self, hholding.pending]
        exact .ended _ hholding.answers
      · rw [Function.update_of_ne hne]
        exact hholding.others proc hne
    · apply Function.update_of_ne
      rintro rfl
      exact hproc hholding.inSection

/-- With the lock free, an admitted call that waits for it ends without help. -/
theorem Keeps.exists_done (h : Keeps protocol ledger callers) (hcustodian : Custodian protocol)
    (hfree : ¬ protocol.held callers.config.shared)
    (hthread : callers.config.thread proc = .running call none (protocol.body call))
    (hadmits : protocol.admits call callers.config.shared) :
    ∃ after result position,
      Relation.ReflTransGen (Internal protocol.exec protocol.body) callers.config after ∧
        after.thread proc = .running call position (.done result) ∧
        protocol.answers call result := by
  have hshared : callers.config.shared = ledger.state := by
    rcases h.lock with ⟨-, hshared, -⟩ | ⟨hheld, -⟩
    · exact hshared
    · exact absurd hheld hfree
  obtain ⟨section', hsection, hguarded⟩ := hcustodian.sectioned call
  have hawait := hthread
  rw [hsection] at hawait
  obtain ⟨-, -, taken, -, hpermitted, htaken⟩ := h.waiting hcustodian hawait
  obtain ⟨result, after, hrun, hanswers, -⟩ :=
    hcustodian.serve h.valid h.free (hshared ▸ hadmits) hpermitted htaken
  rw [← hshared] at hrun
  exact ⟨_, result, _, internal_alone callers.config hthread (hcustodian.sectioned call) hrun,
    Function.update_self .., hanswers⟩

end Keeps

end SideHOS.Sharing
