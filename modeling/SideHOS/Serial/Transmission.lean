import SideHOS.Kernel.Ports
import SideHOS.Serial.Messages

/-!
# Messages on the line

At the level of port accesses a byte is written in two steps, and the device sends it when it
likes.  Every run of the processors and the device follows a run in which `serial_write` is one
access (`Follows`): a processor that has seen the transmitter empty holds `serial_lock`, so the
transmitter is still empty when it writes.  The bytes on the line are therefore the bytes passed to
`serial_write`, each once and in order, and they are made of complete messages.
-/

namespace SideHOS.Serial

open Kernel Machine Machine.Word64 Machine.ByteMemory Transition Sharing Sharing.Program

variable {Device Proc : Type} {uart : Uart Device com1}

/-! ## `serial_init` -/

/-- The registers that `serial_init` leaves.  If the divisor latch was selected, its first write
did not meet the interrupt enable register. -/
def configured (registers : UartRegisters) : UartRegisters where
  divisorLow := 0x03
  divisorHigh := 0x00
  interruptEnable := if registers.Latched then registers.interruptEnable else 0x00
  fifoControl := 0xC7
  lineControl := 0x03
  modemControl := 0x0B

theorem configured_not_latched (registers : UartRegisters) : ¬ (configured registers).Latched := by
  change ¬ ((3 : UInt8) &&& 0x80 ≠ 0)
  decide

theorem latched_of_lineControl {registers : UartRegisters} (h : registers.lineControl = 0x80) :
    registers.Latched := by
  rw [UartRegisters.Latched, h]
  decide

/-- The registers after the writes of `serial_init`. -/
theorem write_serialInit (registers : UartRegisters) :
    ((((((registers.write 1 0x00).write 3 0x80).write 0 0x03).write 1 0x00).write 3 0x03).write 2
      0xC7).write 4 0x0B = configured registers := by
  have hselected : ∀ low high enable fifo modem,
      (UartRegisters.mk low high enable fifo 0x80 modem).Latched :=
    fun _ _ _ _ _ ↦ latched_of_lineControl rfl
  simp only [UartRegisters.write, hselected, if_true, configured]
  split <;> rfl

/-- The device after `serial_init`. -/
def initialised (uart : Uart Device com1) (device : Device) : Device :=
  uart.outb (com1 + 4) 0x0B (uart.outb (com1 + 2) 0xC7 (uart.outb (com1 + 3) 0x03
    (uart.outb (com1 + 1) 0x00 (uart.outb (com1 + 0) 0x03 (uart.outb (com1 + 3) 0x80
      (uart.outb (com1 + 1) 0x00 device))))))

theorem run_serialInit (port : PortState Device) :
    run (execPort uart) (toPorts serialInit) port =
      some ((), { port with device := initialised uart port.device }) := rfl

/-- `serial_init` configures the port from any state. -/
theorem registers_initialised (device : Device) :
    uart.registers (initialised uart device) = configured (uart.registers device) := by
  rw [initialised, uart.registers_outb 4 _ _ (by decide), uart.registers_outb 2 _ _ (by decide),
    uart.registers_outb 3 _ _ (by decide), uart.registers_outb 1 _ _ (by decide),
    uart.registers_outb 0 _ _ (by decide), uart.registers_outb 3 _ _ (by decide),
    uart.registers_outb 1 _ _ (by decide), write_serialInit]

/-- It throws away what is on its way. -/
theorem traffic_initialised (device : Device) :
    uart.traffic (initialised uart device) =
      { uart.traffic device with transmitter := [], received := [] } := by
  have hother : ∀ register value other, register < 5 → register ≠ 2 → register ≠ 0 →
      uart.traffic (uart.outb (com1 + register) value other) = uart.traffic other :=
    fun register value other hlt htwo hzero ↦
      uart.traffic_outb register value other hlt htwo fun h ↦ absurd h hzero
  rw [initialised, hother 4 _ _ (by decide) (by decide) (by decide),
    uart.traffic_fifoControl _ _ (by decide), hother 3 _ _ (by decide) (by decide) (by decide),
    hother 1 _ _ (by decide) (by decide) (by decide),
    uart.traffic_outb 0 _ _ (by decide) (by decide),
    hother 3 _ _ (by decide) (by decide) (by decide),
    hother 1 _ _ (by decide) (by decide) (by decide)]
  intro _
  apply latched_of_lineControl
  rw [uart.registers_outb 3 _ _ (by decide)]
  rfl

/-! ## A run of the processors and a run with whole calls -/

/-- A processor at the ports does what it does with whole calls of `serial_write`.  If it has seen
that it can send, it still can. -/
inductive FollowsThread (uart : Uart Device com1) (device : Device) :
    PortThread → SerialThread → Prop
  | idle : FollowsThread uart device .idle .idle
  | trying (printer : Printer) (body : ℕ → SerialCode Unit) (i : ℕ) :
      FollowsThread uart device (.trying printer (toPorts ∘ body) i) (.trying printer body i)
  | inside (position : ℕ) (passed : Bool) (rest : SerialCode Unit) (code : PortCode Unit)
      (hstage : Stage serialGuard serialName passed rest code)
      (hpassed : passed = true → (uart.traffic device).transmitter = []) :
      FollowsThread uart device (.inside position code) (.inside position rest)

/-- The processors and the device, with a configuration in which the calls of `serial_write` are
whole.  What the device took is what was written, and it has at most one byte still to send. -/
structure Follows (uart : Uart Device com1) (start : Device) (config : PortConfig Device Proc)
    (serial : SerialConfig Proc) : Prop where
  orderly : Orderly serial
  lock : config.port.serialLock = serial.serialLock
  entered : config.entered = serial.entered
  thread : ∀ proc, FollowsThread uart config.port.device (config.thread proc) (serial.thread proc)
  registers : uart.registers config.port.device = uart.registers start
  sent : (uart.traffic config.port.device).line ++ (uart.traffic config.port.device).transmitter =
    (uart.traffic start).line ++ serial.written.map Prod.snd
  few : (uart.traffic config.port.device).transmitter.length ≤ 1

variable {start : Device} {config after : PortConfig Device Proc} {serial : SerialConfig Proc}

/-- What is left of a critical section is the rest of its message, or nothing. -/
theorem Orderly.rest (h : Orderly serial) {proc : Proc} {position : ℕ} {rest : SerialCode Unit}
    (hthread : serial.thread proc = .inside position rest) :
    rest = .done () ∨ ∃ bytes, rest = finishing bytes := by
  rcases h.lock with hquiet | ⟨holder, complete, entry, part, remaining, hprinting⟩
  · have houtside := hquiet.outside proc
    rw [hthread] at houtside
    exact .inl houtside
  · by_cases hholder : proc = holder
    · rw [hholder, hprinting.thread] at hthread
      cases hthread
      exact .inr ⟨remaining, rfl⟩
    · have houtside := hprinting.outside proc hholder
      rw [hthread] at houtside
      exact .inl houtside

/-- At most one processor has something to do under the lock. -/
theorem Orderly.alone (h : Orderly serial) {first second : Proc}
    (hfirst : ¬ Outside (serial.thread first)) (hsecond : ¬ Outside (serial.thread second)) :
    first = second := by
  rcases h.lock with hquiet | ⟨holder, _, _, _, _, hprinting⟩
  · exact absurd (hquiet.outside first) hfirst
  · have hholder : ∀ proc, ¬ Outside (serial.thread proc) → proc = holder := by
      intro proc hproc
      by_contra hne
      exact hproc (hprinting.outside proc hne)
    rw [hholder first hfirst, hholder second hsecond]

/-- A processor follows while the device changes, if it has not seen that it can send or still
can. -/
theorem FollowsThread.congr {device next : Device} {thread : PortThread} {whole : SerialThread}
    (h : FollowsThread uart device thread whole)
    (hempty : ¬ Outside whole → (uart.traffic device).transmitter = [] →
      (uart.traffic next).transmitter = []) : FollowsThread uart next thread whole := by
  cases h with
  | idle => exact .idle
  | trying printer body i => exact .trying printer body i
  | inside position passed rest code hstage hpassed =>
    refine .inside position passed rest code hstage fun htrue ↦ ?_
    subst htrue
    cases hstage with
    | passed operation next hguard => exact hempty (fun h ↦ nomatch h) (hpassed rfl)

/-- `lock_acquire` on the state with the device. -/
theorem execPort_lockAcquire (port : PortState Device) :
    execPort uart .lockAcquire port =
      ((execSerial .lockAcquire port.serialLock).1,
        { port with serialLock := (execSerial .lockAcquire port.serialLock).2 }) := by
  by_cases hfree : port.serialLock = 0
  · simp only [execPort, execSerial, if_pos hfree]
  · simp only [execPort, execSerial, if_neg hfree]

/-- `serial_can_send` says whether the transmitter is empty. -/
theorem canSend_iff (port : PortState Device) :
    (execPort uart serialCanSend port).1 ≠ 0 ↔ (uart.traffic port.device).transmitter = [] := by
  rw [← uart.status_transmitter]
  exact (UInt8.toNat_inj (b := 0)).not

/-- A move of the device. -/
theorem Follows.device (h : Follows uart start config serial) {bytes : List UInt8} {next : Device}
    (hmoves : uart.moves config.port.device bytes next) :
    Follows uart start { config with port.device := next } serial := by
  obtain ⟨hregisters, hsent, htransmitter, -⟩ := uart.moves_keeps _ _ _ hmoves
  refine ⟨h.orderly, h.lock, h.entered, fun proc ↦ (h.thread proc).congr fun _ hempty ↦ ?_,
    hregisters.trans h.registers, hsent.trans h.sent, htransmitter.length_le.trans h.few⟩
  rw [hempty] at htransmitter
  exact List.suffix_nil.mp htransmitter

variable [DecidableEq Proc]

/-- One processor goes on, and the others do not notice. -/
theorem followsThread_update {next : Device} {threads : Proc → PortThread}
    {wholes : Proc → SerialThread} {proc : Proc} {thread : PortThread} {whole : SerialThread}
    (h : ∀ other, other ≠ proc → FollowsThread uart next (threads other) (wholes other))
    (hnew : FollowsThread uart next thread whole) (other : Proc) :
    FollowsThread uart next (Function.update threads proc thread other)
      (Function.update wholes proc whole other) := by
  by_cases heq : other = proc
  · rw [heq, Function.update_self, Function.update_self]
    exact hnew
  · rw [Function.update_of_ne heq, Function.update_of_ne heq]
    exact h other heq

/-- A processor asks whether it can send. -/
theorem Follows.tried (h : Follows uart start config serial) {proc : Proc} {position : ℕ}
    {rest : SerialCode Unit} {later : Bool} {code : PortCode Unit}
    (hthread : serial.thread proc = .inside position rest)
    (hstage : Stage serialGuard serialName later rest code)
    (hlater : later = true → (execPort uart serialCanSend config.port).1 ≠ 0) :
    Follows uart start
      { config with
        port := (execPort uart serialCanSend config.port).2
        thread := Function.update config.thread proc (.inside position code) } serial := by
  obtain ⟨hregisters, htraffic⟩ := uart.status_keeps config.port.device
  refine ⟨h.orderly, h.lock, h.entered, ?_, hregisters.trans h.registers, ?_, ?_⟩
  · rw [← Function.update_eq_self proc serial.thread, hthread]
    apply followsThread_update
    · intro other _
      apply (h.thread other).congr
      intro _ hempty
      exact (congrArg UartTraffic.transmitter htraffic).trans hempty
    · refine .inside position later rest code hstage fun htrue ↦ ?_
      exact (congrArg UartTraffic.transmitter htraffic).trans ((canSend_iff _).mp (hlater htrue))
  · exact (congrArg (fun traffic ↦ traffic.line ++ traffic.transmitter) htraffic).trans h.sent
  · exact (congrArg (fun traffic ↦ traffic.transmitter.length) htraffic).trans_le h.few

/-- A processor that can send writes its next byte. -/
theorem Follows.sends (h : Follows uart start config serial)
    (hstart : ¬ (uart.registers start).Latched) {proc : Proc} {position : ℕ} {byte : UInt8}
    {next : ℕ → SerialCode Unit}
    (hthread : serial.thread proc = .inside position (.access (.serialWrite byte) next))
    (hempty : (uart.traffic config.port.device).transmitter = []) :
    Follows uart start
      { config with
        port := (execPort uart (serialName (.serialWrite byte)) config.port).2
        thread := Function.update config.thread proc (.inside position (toPorts (next 0))) }
      { serial with
        thread := Function.update serial.thread proc (.inside position (next 0))
        written := serial.written ++ [(position, byte)] } := by
  have hlatched : ¬ (uart.registers config.port.device).Latched := h.registers ▸ hstart
  have htraffic := uart.traffic_data byte _ hlatched hempty
  have hregisters := uart.registers_outb 0 byte config.port.device (by decide)
  rw [UartRegisters.write, if_neg hlatched] at hregisters
  refine ⟨h.orderly.access hthread, h.lock, h.entered, ?_, hregisters.trans h.registers, ?_, ?_⟩
  · apply followsThread_update
    · intro other hother
      apply (h.thread other).congr
      intro hinside _
      have hprinting : ¬ Outside (serial.thread proc) := by
        rw [hthread]
        exact fun heq ↦ nomatch heq
      exact absurd (h.orderly.alone hinside hprinting) hother
    · exact .inside position false _ _ (.before _) fun heq ↦ nomatch heq
  · change (uart.traffic (uart.outb (com1 + 0) byte config.port.device)).line ++
      (uart.traffic (uart.outb (com1 + 0) byte config.port.device)).transmitter = _
    have hsent := h.sent
    rw [hempty, List.append_nil] at hsent
    rw [htraffic, hsent, List.map_append, List.append_assoc]
    rfl
  · change (uart.traffic (uart.outb (com1 + 0) byte config.port.device)).transmitter.length ≤ 1
    rw [htraffic]
    rfl

/-- A processor gives `serial_lock` back. -/
theorem Follows.releases (h : Follows uart start config serial) {proc : Proc} {position : ℕ}
    {next : ℕ → SerialCode Unit}
    (hthread : serial.thread proc = .inside position (.access .lockRelease next)) :
    Follows uart start
      { config with
        port := (execPort uart (serialName .lockRelease) config.port).2
        thread := Function.update config.thread proc (.inside position (toPorts (next 0))) }
      { serial with
        serialLock := 0
        thread := Function.update serial.thread proc (.inside position (next 0))
        written := serial.written ++ [] } := by
  refine ⟨h.orderly.access hthread, rfl, h.entered, ?_, h.registers, ?_, h.few⟩
  · apply followsThread_update
    · exact fun other _ ↦ h.thread other
    · exact .inside position false _ _ (.before _) fun heq ↦ nomatch heq
  · rw [List.append_nil]
    exact h.sent

/-- A step of the guarded code is a step of the code, or an access that only asks. -/
theorem Follows.access (h : Follows uart start config serial)
    (hstart : ¬ (uart.registers start).Latched) {proc : Proc} {position : ℕ} {passed : Bool}
    {rest : SerialCode Unit} {code : PortCode Unit} {port : PortState Device}
    (hthread : serial.thread proc = .inside position rest)
    (hpassed : passed = true → (uart.traffic config.port.device).transmitter = [])
    (hadvanced : Advanced serialGuard serialName (execPort uart) passed config.port rest code
      port) :
    ∃ next, (next = serial ∨ ∃ event, SerialStep serial event next) ∧
      Follows uart start
        { config with
          port := port
          thread := Function.update config.thread proc (.inside position code) } next := by
  have hrest := h.orderly.rest hthread
  cases hadvanced with
  | tried operation rest test later code hguard hstage hlater =>
    cases operation with
    | serialWrite byte =>
      cases hguard
      exact ⟨serial, .inl rfl, h.tried hthread hstage hlater⟩
    | outb port value => cases hguard
    | lockAcquire => cases hguard
    | lockRelease => cases hguard
  | spun operation rest => rcases hrest with hrest | ⟨_ | _, hrest⟩ <;> cases hrest
  | left operation rest => rcases hrest with hrest | ⟨_ | _, hrest⟩ <;> cases hrest
  | made operation next hmade =>
    have hstep := SerialStep.access serial proc position operation next hthread
    refine ⟨_, .inr ⟨_, hstep⟩, ?_⟩
    rcases hrest with hrest | ⟨_ | ⟨byte, bytes⟩, hrest⟩
    · cases hrest
    · cases hrest
      exact h.releases hthread
    · cases hrest
      exact h.sends hstart hthread (hpassed (hmade (Option.some_ne_none _)))

/-- Each step is a step with whole calls of `serial_write`, or none. -/
theorem Follows.step (h : Follows uart start config serial)
    (hstart : ¬ (uart.registers start).Latched) (hstep : PortStep uart config after) :
    ∃ next, (next = serial ∨ ∃ event, SerialStep serial event next) ∧
      Follows uart start after next := by
  cases hstep with
  | start proc printer body hthread hbody =>
    have hwhole := h.thread proc
    rw [hthread] at hwhole
    generalize hidle : serial.thread proc = whole at hwhole
    cases hwhole
    have hstep := SerialStep.start serial proc printer body hidle hbody
    refine ⟨_, .inr ⟨_, hstep⟩, h.orderly.step hstep, h.lock, h.entered, ?_, h.registers, h.sent,
      h.few⟩
    exact followsThread_update (fun other _ ↦ h.thread other) (.trying printer body 0)
  | retry proc printer body i hthread hfail =>
    have hwhole := h.thread proc
    rw [hthread] at hwhole
    generalize htrying : serial.thread proc = whole at hwhole
    cases hwhole with
    | trying _ body =>
      rw [execPort_lockAcquire] at hfail ⊢
      rw [h.lock] at hfail
      have hstep := SerialStep.retry serial proc printer body i htrying hfail
      refine ⟨_, .inr ⟨_, hstep⟩, h.orderly.step hstep, ?_, h.entered, ?_, h.registers, h.sent,
        h.few⟩
      · exact congrArg (fun lock ↦ (execSerial .lockAcquire lock).2) h.lock
      · exact followsThread_update (fun other _ ↦ h.thread other) (.trying printer body _)
  | enter proc printer body i hthread hsuccess =>
    have hwhole := h.thread proc
    rw [hthread] at hwhole
    generalize htrying : serial.thread proc = whole at hwhole
    cases hwhole with
    | trying _ body =>
      rw [execPort_lockAcquire] at hsuccess ⊢
      rw [h.lock] at hsuccess
      have hstep := SerialStep.enter serial proc printer body i htrying hsuccess
      refine ⟨_, .inr ⟨_, hstep⟩, h.orderly.step hstep, ?_, ?_, ?_, h.registers, h.sent, h.few⟩
      · exact congrArg (fun lock ↦ (execSerial .lockAcquire lock).2) h.lock
      · exact congrArg (· ++ [⟨proc, printer, i⟩]) h.entered
      · rw [h.entered]
        apply followsThread_update
        · exact fun other _ ↦ h.thread other
        · exact .inside _ false _ _ (.before _) fun heq ↦ nomatch heq
  | access proc position rest later port hthread hadvance =>
    have hwhole := h.thread proc
    rw [hthread] at hwhole
    generalize hinside : serial.thread proc = whole at hwhole
    cases hwhole with
    | inside _ passed rest _ hstage hpassed =>
      exact h.access hstart hinside hpassed (hstage.advance hadvance)
  | leave proc position hthread =>
    have hwhole := h.thread proc
    rw [hthread] at hwhole
    generalize hinside : serial.thread proc = whole at hwhole
    cases hwhole with
    | inside _ passed rest _ hstage =>
      rw [hstage.done] at hinside
      have hstep := SerialStep.leave serial proc position hinside
      refine ⟨_, .inr ⟨_, hstep⟩, h.orderly.step hstep, h.lock, h.entered, ?_, h.registers,
        h.sent, h.few⟩
      exact followsThread_update (fun other _ ↦ h.thread other) .idle
  | device bytes next hmoves => exact ⟨serial, .inl rfl, h.device hmoves⟩

theorem exists_follows {first : PortConfig Device Proc} {begun : SerialConfig Proc}
    (h : Follows uart start first begun) (hstart : ¬ (uart.registers start).Latched)
    (hrun : Relation.ReflTransGen (PortStep uart) first config) :
    ∃ taken serial, Run SerialStep begun taken serial ∧ Follows uart start config serial := by
  induction hrun with
  | refl => exact ⟨[], begun, .nil, h⟩
  | tail _ hstep ih =>
    obtain ⟨taken, serial, hserial, hfollows⟩ := ih
    obtain ⟨next, hnext, hlater⟩ := hfollows.step hstart hstep
    rcases hnext with rfl | ⟨event, hevent⟩
    · exact ⟨taken, next, hserial, hlater⟩
    · exact ⟨_, next, hserial.snoc event hevent, hlater⟩

omit [DecidableEq Proc] in
/-- The processors away from the port, and nothing to send. -/
theorem follows_silent (port : PortState Device) (hlock : port.serialLock = 0)
    (hempty : (uart.traffic port.device).transmitter = []) :
    Follows uart port.device (portSilent port : PortConfig Device Proc) silent where
  orderly := orderly_silent
  lock := hlock
  entered := rfl
  thread _ := .idle
  registers := rfl
  sent := by
    rw [portSilent, hempty]
    rfl
  few := by
    rw [portSilent, hempty]
    exact Nat.zero_le 1

/-- The configurations that are reached after `serial_init`. -/
def PortReaches (uart : Uart Device com1) (port : PortState Device)
    (config : PortConfig Device Proc) : Prop :=
  port.serialLock = 0 ∧ ∃ ready, run (execPort uart) (toPorts serialInit) port = some ((), ready) ∧
    Relation.ReflTransGen (PortStep uart) (portSilent ready) config

variable {port : PortState Device}

theorem PortReaches.follows (h : PortReaches uart port config) :
    ¬ (uart.registers (initialised uart port.device)).Latched ∧
      ∃ taken serial, Run SerialStep silent taken serial ∧
        Follows uart (initialised uart port.device) config serial := by
  obtain ⟨hlock, ready, hready, hrun⟩ := h
  rw [run_serialInit] at hready
  cases hready
  have hlatched : ¬ (uart.registers (initialised uart port.device)).Latched := by
    rw [registers_initialised]
    exact configured_not_latched _
  have hempty : (uart.traffic (initialised uart port.device)).transmitter = [] :=
    congrArg UartTraffic.transmitter (traffic_initialised port.device)
  have hsilent : Follows uart (initialised uart port.device)
      (portSilent { port with device := initialised uart port.device } : PortConfig Device Proc)
      silent :=
    follows_silent { port with device := initialised uart port.device } hlock hempty
  exact ⟨hlatched, exists_follows hsilent hlatched hrun⟩

/-- Whatever the device does, and however the processors interleave, the line carries complete
messages: the bytes sent and the at most one byte to be sent are those of a run with whole calls of
`serial_write`, and the port stays configured. -/
theorem messages_on_line (h : PortReaches uart port config) :
    ∃ taken serial, Run SerialStep silent taken serial ∧ Whole serial ∧
      serial.entered = config.entered ∧
      (uart.traffic config.port.device).line ++ (uart.traffic config.port.device).transmitter =
        (uart.traffic port.device).line ++ serial.written.map Prod.snd ∧
      (uart.traffic config.port.device).transmitter.length ≤ 1 ∧
      uart.registers config.port.device = configured (uart.registers port.device) := by
  obtain ⟨-, taken, serial, hserial, hfollows⟩ := h.follows
  refine ⟨taken, serial, hserial, hfollows.orderly.whole, hfollows.entered.symm, ?_, hfollows.few,
    hfollows.registers.trans (registers_initialised port.device)⟩
  have hsent := hfollows.sent
  rwa [traffic_initialised] at hsent

/-! ## A message can always be finished -/

/-- A processor that can send writes its next byte, if the device has taken the last one. -/
theorem writes_byte {proc : Proc} {position : ℕ} {byte : UInt8} {bytes : List UInt8}
    (config : PortConfig Device Proc)
    (hthread : config.thread proc = .inside position
      (.access (serialName (.serialWrite byte)) fun _ ↦ toPorts (finishing bytes)))
    (hlatched : ¬ (uart.registers config.port.device).Latched)
    (hempty : (uart.traffic config.port.device).transmitter = []) :
    ∃ device, PortStep uart config
        { config with
          port := { config.port with device := device }
          thread := Function.update config.thread proc
            (.inside position (toPorts (finishing bytes))) } ∧
      uart.registers device = uart.registers config.port.device ∧
      (uart.traffic device).line ++ (uart.traffic device).transmitter =
        (uart.traffic config.port.device).line ++ [byte] := by
  refine ⟨uart.outb (com1 + 0) byte config.port.device, ?_, ?_, ?_⟩
  · exact .access config proc position _ _ _ hthread (.access (serialName (.serialWrite byte)) _ _)
  · rw [uart.registers_outb 0 _ _ (by decide), UartRegisters.write, if_neg hlatched]
  · rw [uart.traffic_data _ _ hlatched hempty]

/-- The holder of the lock waits until it can send, and writes its next byte. -/
theorem sends_byte {proc : Proc} {position : ℕ} {byte : UInt8} {bytes : List UInt8}
    (config : PortConfig Device Proc)
    (hthread : config.thread proc = .inside position (toPorts (finishing (byte :: bytes))))
    (hlatched : ¬ (uart.registers config.port.device).Latched) :
    ∃ device, Relation.ReflTransGen (PortStep uart) config
        { config with
          port := { config.port with device := device }
          thread := Function.update config.thread proc
            (.inside position (toPorts (finishing bytes))) } ∧
      uart.registers device = uart.registers config.port.device ∧
      (uart.traffic device).line ++ (uart.traffic device).transmitter =
        (uart.traffic config.port.device).line ++ (uart.traffic config.port.device).transmitter ++
          [byte] := by
  obtain ⟨drained, hmoves, hempty⟩ := uart.drains config.port.device
  obtain ⟨hregisters, hsent, -, -⟩ := uart.moves_keeps _ _ _ hmoves
  obtain ⟨hasked, htraffic⟩ := uart.status_keeps drained
  have hdrain : PortStep uart config { config with port.device := drained } :=
    .device config [] drained hmoves
  let asked : PortConfig Device Proc :=
    { config with
      port := { config.port with device := (uart.inb (com1 + 5) drained).2 }
      thread := Function.update config.thread proc (.inside position
        (.access (serialName (.serialWrite byte)) fun _ ↦ toPorts (finishing bytes))) }
  have hask : PortStep uart { config with port.device := drained } asked :=
    .access { config with port.device := drained } proc position _ _ _ hthread
      (.pass serialCanSend _ _ ((canSend_iff _).mpr hempty))
  have hstatus : uart.registers asked.port.device = uart.registers config.port.device :=
    hasked.trans hregisters
  obtain ⟨device, hwrite, hkept, htaken⟩ := writes_byte asked (Function.update_self ..)
    (fun h ↦ hlatched (hstatus ▸ h)) ((congrArg UartTraffic.transmitter htraffic).trans hempty)
  refine ⟨device, ?_, hkept.trans hstatus, ?_⟩
  · simp only [asked, Function.update_idem] at hwrite
    exact ((Relation.ReflTransGen.single hdrain).tail hask).tail hwrite
  · rw [← hsent, hempty, List.append_nil, htaken]
    exact congrArg (fun traffic ↦ traffic.line ++ [byte]) htraffic

/-- The holder of the lock writes the rest of its message and gives the lock back. -/
theorem sends_all {proc : Proc} {position : ℕ} {bytes : List UInt8}
    (config : PortConfig Device Proc)
    (hthread : config.thread proc = .inside position (toPorts (finishing bytes)))
    (hlatched : ¬ (uart.registers config.port.device).Latched) :
    ∃ device, Relation.ReflTransGen (PortStep uart) config
        { config with
          port := { config.port with device := device, serialLock := 0 }
          thread := Function.update config.thread proc (.inside position (.done ())) } ∧
      uart.registers device = uart.registers config.port.device ∧
      (uart.traffic device).line ++ (uart.traffic device).transmitter =
        (uart.traffic config.port.device).line ++ (uart.traffic config.port.device).transmitter ++
          bytes := by
  induction bytes generalizing config with
  | nil =>
    refine ⟨config.port.device, .single ?_, rfl, (List.append_nil _).symm⟩
    exact .access config proc position _ _ _ hthread (.access (serialName .lockRelease) _ _)
  | cons byte bytes ih =>
    obtain ⟨sent, hsend, hregisters, hsent⟩ := sends_byte config hthread hlatched
    obtain ⟨device, hrest, hkept, htaken⟩ := ih
      { config with
        port := { config.port with device := sent }
        thread := Function.update config.thread proc
          (.inside position (toPorts (finishing bytes))) }
      (Function.update_self ..) (fun h ↦ hlatched (hregisters ▸ h))
    refine ⟨device, ?_, hkept.trans hregisters, ?_⟩
    · simp only [Function.update_idem] at hrest
      exact hsend.trans hrest
    · rw [htaken, hsent, List.append_assoc, List.singleton_append]

/-- It does so also if it has already seen that it can send. -/
theorem sends_rest {proc : Proc} {position : ℕ} {bytes : List UInt8} {passed : Bool}
    {code : PortCode Unit} (hthread : config.thread proc = .inside position code)
    (hstage : Stage serialGuard serialName passed (finishing bytes) code)
    (hpassed : passed = true → (uart.traffic config.port.device).transmitter = [])
    (hlatched : ¬ (uart.registers config.port.device).Latched) :
    ∃ device, Relation.ReflTransGen (PortStep uart) config
        { config with
          port := { config.port with device := device, serialLock := 0 }
          thread := Function.update config.thread proc (.inside position (.done ())) } ∧
      uart.registers device = uart.registers config.port.device ∧
      (uart.traffic device).line ++ (uart.traffic device).transmitter =
        (uart.traffic config.port.device).line ++ (uart.traffic config.port.device).transmitter ++
          bytes := by
  generalize hrest : finishing bytes = rest at hstage
  cases hstage with
  | before =>
    subst hrest
    exact sends_all config hthread hlatched
  | passed operation next hguard =>
    cases bytes with
    | nil =>
      cases hrest
      exact absurd rfl hguard
    | cons byte bytes =>
      cases hrest
      have hempty := hpassed rfl
      obtain ⟨sent, hsend, hregisters, hsent⟩ := writes_byte config hthread hlatched hempty
      obtain ⟨device, hsteps, hkept, htaken⟩ := sends_all
        { config with
          port := { config.port with device := sent }
          thread := Function.update config.thread proc
            (.inside position (toPorts (finishing bytes))) }
        (Function.update_self ..) (fun h ↦ hlatched (hregisters ▸ h))
      refine ⟨device, ?_, hkept.trans hregisters, ?_⟩
      · simp only [Function.update_idem] at hsteps
        exact .head hsend hsteps
      · rw [htaken, hsent, hempty, List.append_nil, List.append_assoc, List.singleton_append]

def sentBytes (uart : Uart Device com1) (device : Device) : List UInt8 :=
  (uart.traffic device).line ++ (uart.traffic device).transmitter

/-- This processor holds the lock.  Behind the complete messages of those that held it before, it
has sent a part of its own message, and this is the rest. -/
structure UnderWay (uart : Uart Device com1) (port : PortState Device)
    (config : PortConfig Device Proc) (holder : Proc) (rest : List UInt8) : Prop where
  locked : config.port.serialLock = 1
  inside : ∃ position code, config.thread holder = .inside position code
  part : ∃ complete entry part, config.entered = complete ++ [entry] ∧ entry.proc = holder ∧
    message entry.printer entry.i = part ++ rest ∧
    sentBytes uart config.port.device = (uart.traffic port.device).line ++
      (complete.flatMap fun entry ↦ message entry.printer entry.i) ++ part

/-- The lock has become free: it was, or its holder has sent the rest of its message and left.
Nobody else has gone on. -/
structure Freed (uart : Uart Device com1) (port : PortState Device)
    (config free : PortConfig Device Proc) (rest : List UInt8) : Prop where
  lock : free.port.serialLock = 0
  entered : free.entered = config.entered
  sent : sentBytes uart free.port.device = sentBytes uart config.port.device ++ rest
  sender : config.port.serialLock = 0 ∧ rest = [] ∧ free = config ∨
    ∃ holder, UnderWay uart port config holder rest ∧
      free.thread = Function.update config.thread holder .idle

/-- Who spins on the lock does so when it has become free. -/
theorem Freed.trying {free : PortConfig Device Proc} {rest : List UInt8} {proc : Proc}
    {printer : Printer} {body : ℕ → PortCode Unit} {i : ℕ} (h : Freed uart port config free rest)
    (hthread : config.thread proc = .trying printer body i) :
    free.thread proc = .trying printer body i := by
  rcases h.sender with ⟨-, -, rfl⟩ | ⟨holder, hunderway, hkept⟩
  · exact hthread
  · obtain ⟨position, code, hinside⟩ := hunderway.inside
    have hne : proc ≠ holder := by
      rintro rfl
      cases hthread.symm.trans hinside
    rw [hkept, Function.update_of_ne hne, hthread]

/-- Whoever holds the lock can finish its message and leave. -/
theorem Follows.frees (h : Follows uart (initialised uart port.device) config serial)
    (hstart : ¬ (uart.registers (initialised uart port.device)).Latched) :
    ∃ free rest, Relation.ReflTransGen (PortStep uart) config free ∧
      Freed uart port config free rest ∧ ¬ (uart.registers free.port.device).Latched := by
  have hlatched : ¬ (uart.registers config.port.device).Latched := h.registers ▸ hstart
  rcases h.orderly.lock with hquiet | ⟨holder, complete, entry, part, remaining, hprinting⟩
  · have hlock : config.port.serialLock = 0 := h.lock.trans hquiet.lock
    exact ⟨config, [], .refl, ⟨hlock, rfl, (List.append_nil _).symm, .inl ⟨hlock, rfl, rfl⟩⟩,
      hlatched⟩
  have hfollows := h.thread holder
  rw [hprinting.thread] at hfollows
  generalize hthread : config.thread holder = thread at hfollows
  cases hfollows with
  | inside _ passed _ code hstage hpassed =>
    obtain ⟨device, hsteps, hregisters, hsent⟩ := sends_rest hthread hstage hpassed hlatched
    have hleave : PortStep uart _ _ := .leave
      { config with
        port := { config.port with device := device, serialLock := 0 }
        thread := Function.update config.thread holder (.inside complete.length (.done ())) }
      holder _ (Function.update_self ..)
    simp only [Function.update_idem] at hleave
    have hwritten : serial.written.map Prod.snd =
        (complete.flatMap fun entry ↦ message entry.printer entry.i) ++ part := by
      rw [hprinting.written, List.map_append, map_snd_transcript, List.map_map]
      simp only [Function.comp_def, List.map_id']
    have htaken := h.sent
    rw [traffic_initialised, hwritten, ← List.append_assoc] at htaken
    have hunderway : UnderWay uart port config holder remaining :=
      { locked := h.lock.trans hprinting.lock
        inside := ⟨_, code, hthread⟩
        part := ⟨complete, entry, part, h.entered.trans hprinting.entered, hprinting.proc,
          hprinting.message, htaken⟩ }
    exact ⟨_, remaining, hsteps.tail hleave, ⟨rfl, rfl, hsent, .inr ⟨holder, hunderway, rfl⟩⟩,
      fun hbefore ↦ hlatched (hregisters ▸ hbefore)⟩

/-- A processor in the spin loop takes a free lock. -/
theorem takes_lock {proc : Proc} {printer : Printer} {body : ℕ → PortCode Unit} {i : ℕ}
    (config : PortConfig Device Proc) (hthread : config.thread proc = .trying printer body i)
    (hlock : config.port.serialLock = 0) :
    PortStep uart config
      { port := { config.port with serialLock := 1 }
        thread := Function.update config.thread proc (.inside config.entered.length (body i))
        entered := config.entered ++ [⟨proc, printer, i⟩] } := by
  have hacquire : execPort uart .lockAcquire config.port =
      (1, { config.port with serialLock := 1 }) := by
    rw [execPort_lockAcquire, hlock]
    rfl
  have hsuccess : (execPort uart .lockAcquire config.port).1 ≠ 0 := by
    rw [hacquire]
    exact one_ne_zero
  have henter := PortStep.enter config proc printer body i hthread hsuccess
  rwa [hacquire] at henter

/-- A processor that nobody disturbs takes a free lock, sends its message and leaves. -/
theorem prints_alone {proc : Proc} {printer : Printer} {body : ℕ → PortCode Unit} {i : ℕ}
    {bytes : List UInt8} (config : PortConfig Device Proc)
    (hthread : config.thread proc = .trying printer body i)
    (hbody : body i = toPorts (finishing bytes)) (hlock : config.port.serialLock = 0)
    (hlatched : ¬ (uart.registers config.port.device).Latched) :
    ∃ device, Relation.ReflTransGen (PortStep uart) config
        { port := { config.port with device := device, serialLock := 0 }
          thread := Function.update config.thread proc .idle
          entered := config.entered ++ [⟨proc, printer, i⟩] } ∧
      (uart.traffic device).transmitter = [] ∧
      (uart.traffic device).line =
        (uart.traffic config.port.device).line ++ (uart.traffic config.port.device).transmitter ++
          bytes := by
  have henter : PortStep uart config _ := takes_lock config hthread hlock
  rw [hbody] at henter
  obtain ⟨device, hprint, -, htaken⟩ := sends_all
    { port := { config.port with serialLock := 1 }
      thread := Function.update config.thread proc
        (.inside config.entered.length (toPorts (finishing bytes)))
      entered := config.entered ++ [⟨proc, printer, i⟩] }
    (Function.update_self ..) hlatched
  simp only [Function.update_idem] at hprint
  obtain ⟨drained, hmoves, hempty⟩ := uart.drains device
  obtain ⟨-, hline, -, -⟩ := uart.moves_keeps _ _ _ hmoves
  have hleave : PortStep uart _ _ := .leave
    { port := { config.port with device := device, serialLock := 0 }
      thread := Function.update config.thread proc (.inside config.entered.length (.done ()))
      entered := config.entered ++ [⟨proc, printer, i⟩] }
    proc _ (Function.update_self ..)
  simp only [Function.update_idem] at hleave
  refine ⟨drained, ((hprint.head henter).tail hleave).tail (.device _ [] drained hmoves), hempty,
    ?_⟩
  rw [hempty, List.append_nil] at hline
  exact hline.trans htaken

/-- From every configuration that is reached, whoever holds the lock can send the rest of its
message, give the lock back and leave, without the others going on; and then any processor in the
spin loop can take the lock, send its whole message and leave, without the others going on. -/
theorem printing_can_finish (h : PortReaches uart port config) :
    ∃ free rest, Relation.ReflTransGen (PortStep uart) config free ∧
      Freed uart port config free rest ∧
      ∀ proc printer body i, config.thread proc = .trying printer body i →
        ∃ later, Relation.ReflTransGen (PortStep uart) free later ∧
          later.thread = Function.update free.thread proc .idle ∧ later.port.serialLock = 0 ∧
          later.entered = config.entered ++ [⟨proc, printer, i⟩] ∧
          (uart.traffic later.port.device).transmitter = [] ∧
          (uart.traffic later.port.device).line =
            sentBytes uart config.port.device ++ rest ++ message printer i := by
  obtain ⟨hlatched, taken, serial, -, hfollows⟩ := h.follows
  obtain ⟨free, rest, hfree, hfreed, hafter⟩ := hfollows.frees hlatched
  refine ⟨free, rest, hfree, hfreed, fun proc printer body i hthread ↦ ?_⟩
  have hbody : body i = toPorts (finishing (message printer i)) := by
    have hproc := hfollows.thread proc
    rw [hthread] at hproc
    generalize hwhole : serial.thread proc = whole at hproc
    cases hproc with
    | trying _ body =>
      rw [← criticalSection_eq (hfollows.orderly.bodies proc printer body i hwhole) i]
      rfl
  obtain ⟨device, hprint, hempty, hline⟩ :=
    prints_alone free (hfreed.trying hthread) hbody hfreed.lock hafter
  refine ⟨_, hprint, rfl, rfl, ?_, hempty, ?_⟩
  · rw [hfreed.entered]
  · exact hline.trans (congrArg (· ++ message printer i) hfreed.sent)

/-- A port with two queues before `serial_init`, with its divisor latch selected and a byte on its
way. -/
def unconfigured : PortState RegisterPort where
  device :=
    { registers := ⟨0, 0, 0, 0, 0x80, 0⟩
      traffic := ⟨[], [65], [66]⟩ }
  serialLock := 0
  memory _ := 0

/-- The first processor of two has begun to greet. -/
theorem portReaches_greeting : ∃ config : PortConfig RegisterPort Bool,
    PortReaches (registerPort com1) unconfigured config ∧
      config.thread false =
        .trying .greeting (toPorts ∘ fun _ ↦ do
          kputs (literal "Hello, World!\r\n")
          let _ ← perform .lockRelease
          pure ()) 0 :=
  ⟨_, ⟨rfl, _, rfl, .single (.start _ false .greeting _ rfl rfl)⟩, rfl⟩

/-- The messages of the two processors are on the line of the port. -/
theorem messages_on_line_greeting : ∃ config : PortConfig RegisterPort Bool,
    ∃ taken serial, Run SerialStep silent taken serial ∧ Whole serial ∧
      serial.entered = config.entered ∧
      config.port.device.traffic.line ++ config.port.device.traffic.transmitter =
        serial.written.map Prod.snd ∧
      config.port.device.traffic.transmitter.length ≤ 1 ∧
      config.port.device.registers = ⟨3, 0, 0, 0xC7, 3, 0x0B⟩ := by
  obtain ⟨config, hreach, -⟩ := portReaches_greeting
  exact ⟨config, messages_on_line hreach⟩

/-- The second processor has sent the first byte of its greeting, and the first spins. -/
theorem portReaches_begun : ∃ (config : PortConfig RegisterPort Bool) (body : ℕ → PortCode Unit),
    PortReaches (registerPort com1) unconfigured config ∧ config.port.serialLock = 1 ∧
      config.entered = [⟨true, .greeting, 0⟩] ∧ config.thread false = .trying .greeting body 0 := by
  obtain ⟨body, hbody⟩ : ∃ body, criticalSection .greeting = some body := ⟨_, rfl⟩
  obtain ⟨byte, bytes, hmessage⟩ : ∃ byte bytes, message .greeting 0 = byte :: bytes := ⟨_, _, rfl⟩
  set ready : PortState RegisterPort :=
    { unconfigured with device := initialised (registerPort com1) unconfigured.device }
  have hlatched : ¬ ((registerPort com1).registers ready.device).Latched := by
    rw [registers_initialised]
    exact configured_not_latched _
  let waiting : PortConfig RegisterPort Bool :=
    { port := ready
      thread := Function.update (fun _ ↦ .idle) true (.trying .greeting (toPorts ∘ body) 0)
      entered := [] }
  let printing : PortConfig RegisterPort Bool :=
    { port := { ready with serialLock := 1 }
      thread := Function.update waiting.thread true
        (.inside 0 (toPorts (finishing (byte :: bytes))))
      entered := [⟨true, .greeting, 0⟩] }
  have hstart : PortStep (registerPort com1) (portSilent ready) waiting :=
    .start (portSilent ready) true .greeting body rfl hbody
  have henter : PortStep (registerPort com1) waiting printing := by
    have hwaiting : waiting.thread true = .trying .greeting (toPorts ∘ body) 0 := rfl
    have htake : PortStep (registerPort com1) waiting _ := takes_lock waiting hwaiting rfl
    rw [Function.comp_apply, criticalSection_eq hbody, hmessage] at htake
    exact htake
  obtain ⟨device, hsend, -, -⟩ := sends_byte printing (Function.update_self ..) hlatched
  have hspin : PortStep (registerPort com1) _ _ := .start
    { printing with
      port := { printing.port with device := device }
      thread := Function.update printing.thread true (.inside 0 (toPorts (finishing bytes))) }
    false .greeting body rfl hbody
  have hrun : Relation.ReflTransGen (PortStep (registerPort com1)) (portSilent ready) printing :=
    (Relation.ReflTransGen.single hstart).tail henter
  exact ⟨_, _, ⟨rfl, ready, run_serialInit unconfigured, (hrun.trans hsend).tail hspin⟩, rfl, rfl,
    rfl⟩

/-- The second processor sends the rest of its greeting, and then the first sends its own. -/
theorem printing_can_finish_greeting : ∃ config free later : PortConfig RegisterPort Bool, ∃ rest,
    Relation.ReflTransGen (PortStep (registerPort com1)) config free ∧
      UnderWay (registerPort com1) unconfigured config true rest ∧
      Relation.ReflTransGen (PortStep (registerPort com1)) free later ∧
      later.port.serialLock = 0 ∧ later.port.device.traffic.transmitter = [] ∧
      later.port.device.traffic.line =
        textBytes "Hello, World!\r\n" ++ textBytes "Hello, World!\r\n" := by
  obtain ⟨config, body, hreach, hlock, hentered, hthread⟩ := portReaches_begun
  obtain ⟨free, rest, hfree, hfreed, hspinning⟩ := printing_can_finish hreach
  obtain ⟨later, hlater, -, hlaterLock, -, hempty, hline⟩ :=
    hspinning false .greeting body 0 hthread
  rcases hfreed.sender with ⟨hzero, -⟩ | ⟨holder, hunderway, -⟩
  · exact absurd (hzero.symm.trans hlock) zero_ne_one
  obtain ⟨complete, entry, part, hparts, hproc, hmessage, hsent⟩ := hunderway.part
  obtain ⟨rfl, rfl⟩ : complete = [] ∧ entry = ⟨true, .greeting, 0⟩ := by
    rw [hentered] at hparts
    exact (List.append_eq_singleton_iff.mp hparts.symm).resolve_right (by simp) |>.imp_right
      (List.cons.inj · |>.1)
  subst hproc
  refine ⟨config, free, later, rest, hfree, hunderway, hlater, hlaterLock, hempty, ?_⟩
  rw [hsent, List.flatMap_nil, List.append_nil, List.append_assoc _ part, ← hmessage] at hline
  exact hline

end SideHOS.Serial
