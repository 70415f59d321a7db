import SideHOS.Boot.Release
import SideHOS.Serial.Messages

/-!
# The serial port before `serial_init`

`kmain` releases the application processors before it calls `serial_init`, and nothing holds them
back: a processor can dequeue a task and print before the port is initialised.  `serialReady_iff`
says when a run is safe: exactly when no task enters its critical section before `serial_init` has
completed.  `kmain` itself is always in time.
-/

namespace SideHOS.Boot

open Kernel Serial Transition Machine.Word64

variable {Proc : Type} [DecidableEq Proc] {mp : MpResponse Proc} {work : Workload Proc}
  {start before after final : Startup Proc} {event : StartupEvent Proc}
  {taken : List (Taken (Startup Proc) (StartupEvent Proc))}

/-- Whatever call of `serial_write` can take place next, `serial_init` has completed. -/
def SerialReady (mp : MpResponse Proc) (work : Workload Proc) (startup : Startup Proc) : Prop :=
  ∀ proc byte after,
    StartupStep mp work startup (.serial (.access proc (.serialWrite byte))) after →
      startup.kmain.Initialised

/-- In this step no task gets `serial_lock` before `serial_init` has completed. -/
def InTime (taken : Taken (Startup Proc) (StartupEvent Proc)) : Prop :=
  ∀ proc, taken.label = .serial (.enter (some proc)) → taken.before.kmain.Initialised

/-! ## The invariant -/

/-- The serial port is used in order, and neither `kmain` has come to its greeting nor has anybody
something to do under the lock before `serial_init` has completed. -/
structure Timely (startup : Startup Proc) : Prop where
  orderly : Orderly startup.serial
  outside : ∀ proc, ¬ Outside (startup.serial.thread proc) → startup.kmain.Initialised
  kmain : startup.serial.thread none ≠ .idle → startup.kmain.Initialised

theorem timely_tasksCreated (h : TasksCreated mp work start) : Timely start := by
  constructor
  · rw [h.serial]
    exact orderly_silent
  · intro proc hinside
    rw [h.serial] at hinside
    exact absurd trivial hinside
  · intro hne
    rw [h.serial] at hne
    exact absurd rfl hne

omit [DecidableEq Proc] in
theorem initialised_kmainAfterSerial {kmain : KmainControl Proc} (h : kmain.Initialised)
    (event : SerialEvent (Option Proc)) : (kmainAfterSerial kmain event).Initialised := by
  cases event with
  | start proc printer =>
    cases proc with
    | none => trivial
    | some proc => exact h
  | leave proc =>
    cases proc with
    | none => trivial
    | some proc => exact h
  | retry | enter | access => exact h

/-- Only by passing the spin loop a processor comes to have something to do under the lock. -/
theorem inside_of_step {config next : SerialConfig (Option Proc)}
    {event : SerialEvent (Option Proc)} (hstep : SerialStep config event next)
    {proc : Option Proc} (h : ¬ Outside (next.thread proc)) :
    ¬ Outside (config.thread proc) ∨ event = .enter proc := by
  by_contra hnot
  push Not at hnot
  obtain ⟨hbefore, hevent⟩ := hnot
  apply h
  cases hstep with
  | start other printer body =>
    exact @outside_update _ _ _ _ (.trying printer body 0) trivial _ fun _ ↦ hbefore
  | retry other printer body i =>
    exact @outside_update _ _ _ _ (.trying printer body (add i 1)) trivial _ fun _ ↦ hbefore
  | enter other =>
    have hne : proc ≠ other := fun heq ↦ hevent (heq ▸ rfl)
    exact (congrArg Outside (Function.update_of_ne hne _ _)).mpr hbefore
  | access other position operation next hthread =>
    have hne : proc ≠ other := by
      rintro rfl
      rw [hthread] at hbefore
      exact nomatch hbefore
    exact (congrArg Outside (Function.update_of_ne hne _ _)).mpr hbefore
  | leave other => exact @outside_update _ _ _ _ .idle trivial _ fun _ ↦ hbefore

/-- Only by starting to print a processor comes to the port. -/
theorem busy_of_step {config next : SerialConfig (Option Proc)}
    {event : SerialEvent (Option Proc)} (hstep : SerialStep config event next)
    {proc : Option Proc} (h : next.thread proc ≠ .idle) :
    config.thread proc ≠ .idle ∨ ∃ printer, event = .start proc printer := by
  by_contra hnot
  push Not at hnot
  obtain ⟨hbefore, hevent⟩ := hnot
  apply h
  cases hstep with
  | start other printer =>
    have hne : proc ≠ other := fun heq ↦ hevent printer (heq ▸ rfl)
    exact (Function.update_of_ne hne _ _).trans hbefore
  | retry other printer body i hthread =>
    have hne : proc ≠ other := by
      rintro rfl
      exact nomatch hthread.symm.trans hbefore
    exact (Function.update_of_ne hne _ _).trans hbefore
  | enter other printer body i hthread =>
    have hne : proc ≠ other := by
      rintro rfl
      exact nomatch hthread.symm.trans hbefore
    exact (Function.update_of_ne hne _ _).trans hbefore
  | access other position operation next hthread =>
    have hne : proc ≠ other := by
      rintro rfl
      exact nomatch hthread.symm.trans hbefore
    exact (Function.update_of_ne hne _ _).trans hbefore
  | leave other =>
    by_cases heq : proc = other
    · rw [heq]
      exact Function.update_self ..
    · exact (Function.update_of_ne heq _ _).trans hbefore

/-- A processor that passes the spin loop was in it. -/
theorem busy_of_enter {config next : SerialConfig (Option Proc)} {proc : Option Proc}
    (hstep : SerialStep config (.enter proc) next) : config.thread proc ≠ .idle := by
  cases hstep with
  | enter _ printer body i hthread => exact fun hidle ↦ nomatch hthread.symm.trans hidle

/-- A step at the port by which no task gets the lock too early. -/
theorem Timely.serial_step (h : Timely before) {event : SerialEvent (Option Proc)}
    {serial : SerialConfig (Option Proc)} (hallowed : MayPrint work before event)
    (hstep : SerialStep before.serial event serial)
    (hintime : ∀ proc, event = .enter (some proc) → before.kmain.Initialised)
    (printed : Proc → Bool) :
    Timely { before with
      kmain := kmainAfterSerial before.kmain event
      printed := printed
      serial := serial } := by
  constructor
  · exact h.orderly.step hstep
  · intro proc hinside
    apply initialised_kmainAfterSerial
    rcases inside_of_step hstep hinside with hbefore | rfl
    · exact h.outside proc hbefore
    · cases proc with
      | none => exact h.kmain (busy_of_enter hstep)
      | some proc => exact hintime proc rfl
  · intro hbusy
    rcases busy_of_step hstep hbusy with hbefore | ⟨printer, rfl⟩
    · exact initialised_kmainAfterSerial (h.kmain hbefore) _
    · trivial

omit [DecidableEq Proc] in
/-- Before `serial_init` has completed nobody is at the port. -/
theorem Timely.of_early (h : Timely before) {kmain : KmainControl Proc}
    (hkmain : before.kmain = kmain) (hearly : ¬ kmain.Initialised)
    (hserial : after.serial = before.serial) : Timely after := by
  rw [← hkmain] at hearly
  refine ⟨hserial ▸ h.orderly, fun proc hinside ↦ ?_, fun hbusy ↦ ?_⟩
  · rw [hserial] at hinside
    exact absurd (h.outside proc hinside) hearly
  · rw [hserial] at hbusy
    exact absurd (h.kmain hbusy) hearly

theorem Timely.step (h : Timely before) (hstep : StartupStep mp work before event after)
    (hintime : InTime ⟨before, event, after⟩) : Timely after := by
  cases hstep with
  | release cpu cpus hkmain => exact h.of_early hkmain id rfl
  | initHardware hkmain => exact h.of_early hkmain id rfl
  | outb port value next hkmain => exact h.of_early hkmain id rfl
  | initialised hkmain => exact h.of_early hkmain id rfl
  | machine event machine hallowed hmachine => exact ⟨h.orderly, h.outside, h.kmain⟩
  | serial event serial hallowed hserial =>
    exact h.serial_step hallowed hserial (fun proc heq ↦ hintime proc (heq ▸ rfl)) _

theorem Timely.serialReady {startup : Startup Proc} (h : Timely startup) :
    SerialReady mp work startup := by
  intro proc byte after hstep
  cases hstep with
  | serial _ serial hallowed hserial =>
    cases hserial with
    | access _ position _ next hthread =>
      apply h.outside proc
      rw [hthread]
      exact fun heq ↦ nomatch heq

/-- Every message begins with some byte. -/
theorem exists_message_cons (printer : Printer) (i : ℕ) :
    ∃ byte bytes, message printer i = byte :: bytes := by
  cases printer with
  | factorial n => exact ⟨_, _, rfl⟩
  | fibonacci n => exact ⟨_, _, rfl⟩
  | greeting => exact ⟨_, _, rfl⟩

/-- A task that has got the lock writes next. -/
theorem Timely.exists_write (h : Timely before) {proc : Proc}
    (hstep : StartupStep mp work before (.serial (.enter (some proc))) after) :
    after.kmain = before.kmain ∧ ∃ byte later,
      StartupStep mp work after (.serial (.access (some proc) (.serialWrite byte))) later := by
  cases hstep with
  | serial _ serial hallowed hserial =>
    cases hserial with
    | enter _ printer body i hthread hsuccess =>
      obtain ⟨byte, bytes, hmessage⟩ := exists_message_cons printer i
      have hbody : body i = .access (.serialWrite byte) fun _ ↦ finishing bytes := by
        rw [criticalSection_eq (h.orderly.bodies _ _ _ _ hthread), hmessage, finishing]
      refine ⟨rfl, byte, _, StartupStep.serial _ _ _ trivial (SerialStep.access _ (some proc)
        before.serial.entered.length (.serialWrite byte) (fun _ ↦ finishing bytes) ?_)⟩
      rw [← hbody]
      exact Function.update_self ..

/-! ## A task that comes to the port -/

omit [DecidableEq Proc] in
theorem forall_inTime_concat (htaken : ∀ t ∈ taken, InTime t)
    {last : Taken (Startup Proc) (StartupEvent Proc)} (hlast : InTime last) :
    ∀ t ∈ taken ++ [last], InTime t := by
  intro t ht
  rcases List.mem_append.mp ht with hmem | hmem
  · exact htaken t hmem
  · rwa [List.mem_singleton.mp hmem]

theorem run_releasing {cpus : List Proc} (hrun : Run (StartupStep mp work) start taken before)
    (hkmain : before.kmain = .releasing cpus) :
    ∃ later released, Run (StartupStep mp work) start later
        { before with
          kmain := .releasing []
          released := released } ∧
      ((∀ t ∈ taken, InTime t) → ∀ t ∈ later, InTime t) ∧
      (∀ proc, before.released proc = true → released proc = true) ∧
      ∀ proc ∈ cpus, mp.lapicId proc ≠ mp.bspLapicId → released proc = true := by
  induction cpus generalizing taken before with
  | nil =>
    refine ⟨taken, before.released, ?_, id, fun _ ↦ id, by simp⟩
    rwa [← hkmain]
  | cons cpu cpus ih =>
    obtain ⟨later, released, hlater, hintime, hkept, hreleased⟩ :=
      ih (hrun.snoc _ (StartupStep.release before cpu cpus hkmain)) rfl
    refine ⟨later, released, hlater, fun htaken ↦ hintime ?_, fun proc hproc ↦ hkept proc ?_,
      fun proc hproc hlapic ↦ ?_⟩
    · exact forall_inTime_concat htaken fun _ hlabel ↦ nomatch hlabel
    · dsimp only
      split
      · by_cases heq : proc = cpu
        · rw [heq, Function.update_self]
        · rwa [Function.update_of_ne heq]
      · exact hproc
    · rcases List.mem_cons.mp hproc with rfl | hmem
      · apply hkept
        dsimp only
        rw [if_pos hlapic, Function.update_self]
      · exact hreleased proc hmem hlapic

/-- What a released processor does before it runs a task of `kmain` it can do beside `kmain`. -/
theorem run_machine {machine : Machine Proc} {steps : List (Taken (Machine Proc) (Event Proc))}
    {proc : Proc} (hrun : Run (StartupStep mp work) start taken before)
    (hreleased : before.released proc = true) (hprinted : ∀ other, before.printed other = false)
    (hmachine : Run (MachineStep work) before.machine steps machine)
    (hbefore : ∀ step ∈ steps, BeforeBody proc step) :
    ∃ later, Run (StartupStep mp work) start later { before with machine := machine } ∧
      ((∀ t ∈ taken, InTime t) → ∀ t ∈ later, InTime t) := by
  induction hmachine with
  | nil => exact ⟨taken, hrun, id⟩
  | @snoc steps middle event machine hearlier hlast ih =>
    obtain ⟨later, hlater, hintime⟩ :=
      ih fun step hstep ↦ hbefore step (List.mem_append_left _ hstep)
    have hlabel : BeforeBody proc ⟨middle, event, machine⟩ := hbefore _ (by simp)
    have hallowed : MayProceed { before with machine := middle } event := by
      cases event with
      | queue => trivial
      | call other =>
        obtain rfl : other = proc := hlabel
        exact hreleased
      | answer other task => trivial
      | proceed other =>
        obtain ⟨rfl, hcontrol⟩ := hlabel
        exact fun hbody ↦ absurd hbody hcontrol
    have hafter : printedAfterMachine before.printed event = before.printed := by
      cases event with
      | proceed other => exact Function.update_eq_self_iff.mpr (hprinted other).symm
      | queue | call | answer => rfl
    have hstep := hlater.snoc _ (StartupStep.machine _ event machine hallowed hlast)
    rw [hafter] at hstep
    exact ⟨_, hstep,
      fun htaken ↦ forall_inTime_concat (hintime htaken) fun _ hlabel ↦ nomatch hlabel⟩

omit [DecidableEq Proc] in
/-- The tasks of `kmain` come to `serial_lock`. -/
theorem exists_taskPrinter_body (work : Workload Proc) (t : ℕ) :
    ∃ body, criticalSection (taskPrinter work t) = some body := by
  have hfactorial : factorialLoop 100 walkFuel 2 1 = some (Nat.factorial 100 % 2 ^ 64) := by
    rw [factorialLoop_start, if_pos (by norm_num)]
  have hfibonacci : fibonacciLoop 1000000 walkFuel 2 0 1 = some (Nat.fib 1000000 % 2 ^ 64) := by
    rw [fibonacciLoop_start (by norm_num), if_pos (by norm_num)]
  unfold taskPrinter
  split
  · exact ⟨_, congrArg (Option.map _) hfactorial⟩
  · refine ⟨printLine "Fibonacci - " 1000000 (Nat.fib 1000000 % 2 ^ 64), ?_⟩
    rw [criticalSection, if_neg (by norm_num), hfibonacci, Option.map_some]

/-- Wherever `kmain` is, a released processor can come to the critical section of its first task
and write there, as long as nobody has been at the port.  It is in time if `serial_init` has
completed. -/
theorem exists_enter {t : ℕ} {rest : List ℕ} {proc : Proc}
    (hrun : Run (StartupStep mp work) start taken before)
    (hbooted : Booted work before.machine)
    (hqueued : Tasks.Queued before.machine.queue.shared work.ordinary)
    (hfirst : work.ordinary = t :: rest) (hreleased : before.released proc = true)
    (hprinted : ∀ other, before.printed other = false) (hserial : before.serial = silent) :
    ∃ later inside byte written, Run (StartupStep mp work) start later inside ∧
      inside.kmain = before.kmain ∧
      StartupStep mp work inside (.serial (.access (some proc) (.serialWrite byte))) written ∧
      written.serial.written = [(0, byte)] ∧
      (before.kmain.Initialised → (∀ t ∈ taken, InTime t) → ∀ t ∈ later, InTime t) := by
  obtain ⟨steps, looping, hloop, hloopSteps, hatLoop⟩ := exists_atLoop hbooted hqueued proc
  obtain ⟨early, hlooping, hearly⟩ := run_machine hrun hreleased hprinted hloop hloopSteps
  obtain ⟨steps, entered, hbody, hbodySteps, hcontrol, hstack⟩ := hatLoop.exists_body hfirst
  obtain ⟨later, hentered, hlater⟩ := run_machine hlooping hreleased hprinted hbody hbodySteps
  obtain ⟨body, hsection⟩ := exists_taskPrinter_body work t
  obtain ⟨byte, bytes, hmessage⟩ := exists_message_cons (taskPrinter work t) 0
  have hbodyCons : body 0 = .access (.serialWrite byte) fun _ ↦ finishing bytes := by
    rw [criticalSection_eq hsection, hmessage, finishing]
  have hstarted := hentered.snoc _ (StartupStep.serial _
    (.start (some proc) (taskPrinter work t)) _ ⟨hcontrol, hprinted proc, by rw [hstack]⟩
    (SerialStep.start _ (some proc) (taskPrinter work t) body (by rw [hserial]; rfl) hsection))
  have hsuccess : (execSerial .lockAcquire before.serial.serialLock).1 ≠ 0 := by
    rw [hserial]
    exact one_ne_zero
  have hinside := hstarted.snoc _ (StartupStep.serial _ (.enter (some proc)) _ trivial
    (SerialStep.enter _ (some proc) (taskPrinter work t) body 0 (Function.update_self ..) hsuccess))
  refine ⟨_, _, byte, _, hinside, rfl,
    StartupStep.serial _ (.access (some proc) (.serialWrite byte)) _ trivial
      (SerialStep.access _ (some proc) before.serial.entered.length (.serialWrite byte)
        (fun _ ↦ finishing bytes) ?_), ?_, fun hinitialised htaken ↦ ?_⟩
  · rw [← hbodyCons]
    exact Function.update_self ..
  · simp [hserial]
    rfl
  · refine forall_inTime_concat (forall_inTime_concat (hlater (hearly htaken)) ?_) ?_
    · intro _ hlabel
      cases StartupEvent.serial.inj hlabel
    · exact fun _ _ ↦ hinitialised

/-- The two thousand tasks of `kmain`, in their own pages. -/
def twoThousandTasks : Workload Bool where
  ordinary := (List.range 2000).map fun index ↦ (index + 1) * 4096
  idle proc := if proc then 4096 * 3000 else 4096 * 4000
  nodup := List.nodup_range.map fun _ _ h ↦ by simpa using h
  injective := by decide
  disjoint proc := by
    cases proc <;> simp <;> omega
  ordinary_address t ht := by
    obtain ⟨index, hindex, rfl⟩ := List.mem_map.mp ht
    rw [List.mem_range] at hindex
    omega
  idle_address proc := by
    cases proc <;> norm_num

/-- The boot processor and one application processor. -/
def twoProcessors : MpResponse Bool where
  bspLapicId := 0
  cpus := [false, true]
  lapicId proc := if proc then 1 else 0

theorem twoThousandTasks_ordinary : twoThousandTasks.ordinary =
    (0 + 1) * 4096 :: ((List.range 1999).map Nat.succ).map fun index ↦ (index + 1) * 4096 := by
  have hrange : List.range 2000 = 0 :: (List.range 1999).map Nat.succ := List.range_succ_eq_map
  simp only [twoThousandTasks, hrange, List.map_cons]

theorem exists_tasksCreated_twoProcessors : ∃ start,
    TasksCreated twoProcessors twoThousandTasks start ∧
    Tasks.Queued start.machine.queue.shared twoThousandTasks.ordinary := by
  obtain ⟨machine, hbooted, hqueued⟩ := exists_booted twoThousandTasks true
  exact ⟨⟨.releasing [false, true], fun _ ↦ false, machine, fun _ ↦ false, silent⟩,
    ⟨rfl, fun _ ↦ rfl, hbooted, fun _ ↦ rfl, rfl⟩, hqueued⟩

/-- A run keeps the serial port from being used before it is initialised exactly as long as no
task gets `serial_lock` before `serial_init` has completed. -/
theorem serialReady_iff (hstart : TasksCreated mp work start)
    (hrun : Run (StartupStep mp work) start taken final) :
    (∀ t ∈ taken, InTime t) ↔ ∀ t ∈ taken, SerialReady mp work t.after := by
  refine hrun.forall_iff (timely_tasksCreated hstart)
    (fun _ _ _ h hstep hintime ↦ h.step hstep hintime) fun before event after h hstep ↦ ?_
  constructor
  · intro hintime
    exact (h.step hstep hintime).serialReady
  · rintro hready proc rfl
    obtain ⟨hkmain, byte, later, hwrite⟩ := h.exists_write hstep
    exact hkmain ▸ hready _ _ _ hwrite

/-- `kmain` releases the processors and initialises the port; then the other processor starts,
dequeues the first task and begins to print. -/
theorem serialReady_task : ∃ start taken final byte,
    Run (StartupStep twoProcessors twoThousandTasks) start taken final ∧
    final.serial.written = [(0, byte)] ∧ final.kmain = .greeting ∧
    ∀ t ∈ taken, SerialReady twoProcessors twoThousandTasks t.after := by
  obtain ⟨start, hstart, hqueued⟩ := exists_tasksCreated_twoProcessors
  have hnil : Run (StartupStep twoProcessors twoThousandTasks) start [] start := .nil
  obtain ⟨early, released, hreleasing, hearly, -, hreleased⟩ := run_releasing hnil hstart.kmain
  have hcalled := hreleasing.snoc _ (.initHardware _ rfl)
  have hthree := ((hcalled.snoc _ (.outb _ _ _ _ rfl)).snoc _ (.outb _ _ _ _ rfl)).snoc _
    (.outb _ _ _ _ rfl)
  have hseven := (((hthree.snoc _ (.outb _ _ _ _ rfl)).snoc _ (.outb _ _ _ _ rfl)).snoc _
    (.outb _ _ _ _ rfl)).snoc _ (.outb _ _ _ _ rfl)
  have hinitialised := hseven.snoc _ (.initialised _ rfl)
  obtain ⟨later, inside, byte, written, hinside, hkmain, hwrite, hwritten, hlater⟩ :=
    exists_enter hinitialised hstart.machine hqueued twoThousandTasks_ordinary
      (hreleased true (by decide) (by decide)) hstart.printed hstart.serial
  have hrun := hinside.snoc _ hwrite
  refine ⟨start, _, written, byte, hrun, hwritten, ?_, (serialReady_iff hstart hrun).mp ?_⟩
  · cases hwrite with
    | serial => exact hkmain
  · refine forall_inTime_concat (hlater trivial ?_)
      fun _ hlabel ↦ nomatch StartupEvent.serial.inj hlabel
    simpa only [List.forall_mem_append, List.forall_mem_singleton, InTime, reduceCtorEq,
      false_imp_iff, implies_true, and_true] using hearly (by simp)

/-- Where there is an application processor, a task can print between the second and the third
port write of `serial_init`, which is while the divisor latch is selected. -/
theorem exists_early_write {t : ℕ} {rest : List ℕ} {proc : Proc}
    (hstart : TasksCreated mp work start)
    (hqueued : Tasks.Queued start.machine.queue.shared work.ordinary)
    (hfirst : work.ordinary = t :: rest) (hproc : proc ∈ mp.cpus)
    (hlapic : mp.lapicId proc ≠ mp.bspLapicId) :
    ∃ taken before byte after next, Run (StartupStep mp work) start taken before ∧
      StartupStep mp work before (.serial (.access (some proc) (.serialWrite byte))) after ∧
      before.kmain = .initialising (.access (.outb (com1 + 0) 0x03) next) := by
  have hnil : Run (StartupStep mp work) start [] start := .nil
  obtain ⟨taken, released, hreleasing, -, -, hreleased⟩ := run_releasing hnil hstart.kmain
  have hcalled := hreleasing.snoc _ (StartupStep.initHardware _ rfl)
  have hfirstWrite := hcalled.snoc _ (StartupStep.outb _ _ _ _ rfl)
  have hselected := hfirstWrite.snoc _ (StartupStep.outb _ _ _ _ rfl)
  obtain ⟨later, inside, byte, written, hinside, hkmain, hwrite, -⟩ :=
    exists_enter hselected hstart.machine hqueued hfirst (hreleased proc hproc hlapic)
      hstart.printed hstart.serial
  exact ⟨later, inside, byte, written, _, hinside, hwrite, hkmain⟩

/-- `serial_write` is called while `serial_init` has made two of its seven port writes. -/
theorem serial_write_before_init : ∃ start taken before byte after next,
    TasksCreated twoProcessors twoThousandTasks start ∧
    Run (StartupStep twoProcessors twoThousandTasks) start taken before ∧
    StartupStep twoProcessors twoThousandTasks before
      (.serial (.access (some true) (.serialWrite byte))) after ∧
    before.kmain = .initialising (.access (.outb (com1 + 0) 0x03) next) ∧
    ¬ SerialReady twoProcessors twoThousandTasks before := by
  obtain ⟨start, hstart, hqueued⟩ := exists_tasksCreated_twoProcessors
  obtain ⟨taken, before, byte, after, next, hrun, hwrite, hkmain⟩ :=
    @exists_early_write Bool _ twoProcessors _ _ _ _ true hstart hqueued twoThousandTasks_ordinary
      (by decide) (by decide)
  refine ⟨_, taken, before, byte, after, next, hstart, hrun, hwrite, hkmain, fun hready ↦ ?_⟩
  have hinitialised := hready _ _ _ hwrite
  rwa [hkmain] at hinitialised

end SideHOS.Boot
