import Mathlib.Tactic

/-!
# A serial port

The registers of a serial port lie at eight consecutive I/O ports from its base on.  A `Uart` is any
device that behaves there as the data sheet says: the top bit of the line control register puts the
divisor latch in place of the first two registers, the line status register tells whether a byte has
been received and whether the transmitter is empty, and the first register takes a byte to send
and gives the next byte received.  Nothing is said of a byte that is sent while the transmitter is
not empty.  `registerPort` is a device of this kind.

The device works by itself: `moves` is what it may do between two accesses, with the bytes that its
receiver takes in.
-/

namespace SideHOS.Machine

/-- The registers that keep what is written to them. -/
@[ext]
structure UartRegisters where
  divisorLow : UInt8
  divisorHigh : UInt8
  interruptEnable : UInt8
  fifoControl : UInt8
  lineControl : UInt8
  modemControl : UInt8
  deriving DecidableEq

/-- The divisor latch is in place of the first two registers. -/
def UartRegisters.Latched (registers : UartRegisters) : Prop := registers.lineControl &&& 0x80 ≠ 0

instance (registers : UartRegisters) : Decidable registers.Latched :=
  inferInstanceAs (Decidable (registers.lineControl &&& 0x80 ≠ 0))

def UartRegisters.write (registers : UartRegisters) (register : ℕ) (value : UInt8) :
    UartRegisters :=
  match register with
  | 0 => if registers.Latched then { registers with divisorLow := value } else registers
  | 1 =>
    if registers.Latched then { registers with divisorHigh := value }
    else { registers with interruptEnable := value }
  | 2 => { registers with fifoControl := value }
  | 3 => { registers with lineControl := value }
  | 4 => { registers with modemControl := value }
  | _ => registers

/-- What a device does apart from its registers. -/
@[ext]
structure UartTraffic where
  line : List UInt8
  transmitter : List UInt8
  received : List UInt8

/-- A serial port at the I/O ports from `base` on. -/
structure Uart (Device : Type) (base : ℕ) where
  inb : ℕ → Device → UInt8 × Device
  outb : ℕ → UInt8 → Device → Device
  moves : Device → List UInt8 → Device → Prop
  registers : Device → UartRegisters
  traffic : Device → UartTraffic
  registers_outb : ∀ register value device, register < 5 →
    registers (outb (base + register) value device) = (registers device).write register value
  traffic_outb : ∀ register value device, register < 5 → register ≠ 2 →
    (register = 0 → (registers device).Latched) →
    traffic (outb (base + register) value device) = traffic device
  traffic_fifoControl : ∀ value device, value &&& 7 = 7 →
    traffic (outb (base + 2) value device) =
      { traffic device with transmitter := [], received := [] }
  traffic_data : ∀ value device, ¬ (registers device).Latched →
    (traffic device).transmitter = [] →
    traffic (outb (base + 0) value device) = { traffic device with transmitter := [value] }
  status_received : ∀ device,
    (inb (base + 5) device).1 &&& 1 ≠ 0 ↔ (traffic device).received ≠ []
  status_transmitter : ∀ device,
    (inb (base + 5) device).1 &&& 0x20 ≠ 0 ↔ (traffic device).transmitter = []
  status_keeps : ∀ device, registers (inb (base + 5) device).2 = registers device ∧
    traffic (inb (base + 5) device).2 = traffic device
  read_data : ∀ device byte rest, ¬ (registers device).Latched →
    (traffic device).received = byte :: rest →
    (inb (base + 0) device).1 = byte ∧
      registers (inb (base + 0) device).2 = registers device ∧
      traffic (inb (base + 0) device).2 = { traffic device with received := rest }
  moves_keeps : ∀ device bytes after, moves device bytes after →
    registers after = registers device ∧
      (traffic after).line ++ (traffic after).transmitter =
        (traffic device).line ++ (traffic device).transmitter ∧
      (traffic after).transmitter <:+ (traffic device).transmitter ∧
      (traffic after).received = (traffic device).received ++ bytes
  drains : ∀ device, ∃ after, moves device [] after ∧ (traffic after).transmitter = []

/-- The registers and the bytes on their way of a port with two queues of sixteen bytes. -/
structure RegisterPort where
  registers : UartRegisters
  traffic : UartTraffic

namespace RegisterPort

def status (port : RegisterPort) : UInt8 :=
  (if port.traffic.received = [] then 0 else 1) |||
    (if port.traffic.transmitter = [] then 0x20 else 0)

def read (port : RegisterPort) : ℕ → UInt8 × RegisterPort
  | 0 =>
    if port.registers.Latched then (port.registers.divisorLow, port)
    else
      (port.traffic.received.headD 0,
        { port with
          traffic := { port.traffic with received := port.traffic.received.tail } })
  | 5 => (port.status, port)
  | _ => (0, port)

/-- The bytes on their way after a write to a register. -/
def trafficAfter (port : RegisterPort) (value : UInt8) : ℕ → UartTraffic
  | 0 =>
    if port.registers.Latched then port.traffic
    else if port.traffic.transmitter.length < 16 then
      { port.traffic with transmitter := port.traffic.transmitter ++ [value] }
    else port.traffic
  | 2 =>
    { port.traffic with
      received := if value &&& 3 = 3 then [] else port.traffic.received
      transmitter := if value &&& 5 = 5 then [] else port.traffic.transmitter }
  | _ => port.traffic

def write (port : RegisterPort) (register : ℕ) (value : UInt8) : RegisterPort where
  registers := port.registers.write register value
  traffic := port.trafficAfter value register

/-- The device sends a part of what it has to send, and takes in bytes as long as its queue has
room for them. -/
def Moves (port : RegisterPort) (bytes : List UInt8) (after : RegisterPort) : Prop :=
  after.registers = port.registers ∧
    after.traffic.received = port.traffic.received ++ bytes ∧
    (bytes ≠ [] → after.traffic.received.length ≤ 16) ∧
    ∃ sent, port.traffic.transmitter = sent ++ after.traffic.transmitter ∧
      after.traffic.line = port.traffic.line ++ sent

theorem status_received (port : RegisterPort) :
    port.status &&& 1 ≠ 0 ↔ port.traffic.received ≠ [] := by
  unfold status
  by_cases hreceived : port.traffic.received = [] <;>
    by_cases htransmitter : port.traffic.transmitter = [] <;>
    simp [hreceived, htransmitter] <;> decide

theorem status_transmitter (port : RegisterPort) :
    port.status &&& 0x20 ≠ 0 ↔ port.traffic.transmitter = [] := by
  unfold status
  by_cases hreceived : port.traffic.received = [] <;>
    by_cases htransmitter : port.traffic.transmitter = [] <;>
    simp [hreceived, htransmitter] <;> decide

theorem registers_write (port : RegisterPort) (register : ℕ) (value : UInt8) :
    (port.write register value).registers = port.registers.write register value := rfl

theorem traffic_write (port : RegisterPort) {register : ℕ} (value : UInt8) (hlt : register < 5)
    (hne : register ≠ 2) (hlatched : register = 0 → port.registers.Latched) :
    (port.write register value).traffic = port.traffic := by
  change port.trafficAfter value register = _
  interval_cases register
  · exact if_pos (hlatched rfl)
  · rfl
  · exact absurd rfl hne
  · rfl
  · rfl

theorem traffic_fifoControl (port : RegisterPort) {value : UInt8} (h : value &&& 7 = 7) :
    (port.write 2 value).traffic = { port.traffic with transmitter := [], received := [] } := by
  have hreceived : value &&& 3 = 3 := by
    calc value &&& 3
      _ = value &&& 7 &&& 3 := by rw [UInt8.and_assoc]; rfl
      _ = 3 := by rw [h]; rfl
  have htransmitter : value &&& 5 = 5 := by
    calc value &&& 5
      _ = value &&& 7 &&& 5 := by rw [UInt8.and_assoc]; rfl
      _ = 5 := by rw [h]; rfl
  change port.trafficAfter value 2 = _
  rw [trafficAfter, if_pos hreceived, if_pos htransmitter]

theorem traffic_data (port : RegisterPort) (value : UInt8) (hlatched : ¬ port.registers.Latched)
    (hempty : port.traffic.transmitter = []) :
    (port.write 0 value).traffic = { port.traffic with transmitter := [value] } := by
  change port.trafficAfter value 0 = _
  rw [trafficAfter, if_neg hlatched, hempty, if_pos (by decide), List.nil_append]

theorem read_data (port : RegisterPort) {byte : UInt8} {rest : List UInt8}
    (hlatched : ¬ port.registers.Latched) (hreceived : port.traffic.received = byte :: rest) :
    (port.read 0).1 = byte ∧ (port.read 0).2.registers = port.registers ∧
      (port.read 0).2.traffic = { port.traffic with received := rest } := by
  rw [read, if_neg hlatched, hreceived]
  exact ⟨rfl, rfl, rfl⟩

theorem Moves.keeps {port after : RegisterPort} {bytes : List UInt8} (h : Moves port bytes after) :
    after.registers = port.registers ∧
      after.traffic.line ++ after.traffic.transmitter =
        port.traffic.line ++ port.traffic.transmitter ∧
      after.traffic.transmitter <:+ port.traffic.transmitter ∧
      after.traffic.received = port.traffic.received ++ bytes := by
  obtain ⟨hregisters, hreceived, -, sent, htransmitter, hline⟩ := h
  refine ⟨hregisters, ?_, ⟨sent, htransmitter.symm⟩, hreceived⟩
  rw [hline, htransmitter, List.append_assoc]

def drained (port : RegisterPort) : RegisterPort where
  registers := port.registers
  traffic :=
    { port.traffic with
      line := port.traffic.line ++ port.traffic.transmitter
      transmitter := [] }

theorem moves_drained (port : RegisterPort) : Moves port [] port.drained :=
  ⟨rfl, (List.append_nil _).symm, fun h ↦ absurd rfl h, port.traffic.transmitter,
    (List.append_nil _).symm, rfl⟩

end RegisterPort

/-- The port with two queues is a serial port. -/
def registerPort (base : ℕ) : Uart RegisterPort base where
  inb port device := device.read (port - base)
  outb port value device := device.write (port - base) value
  moves := RegisterPort.Moves
  registers := RegisterPort.registers
  traffic := RegisterPort.traffic
  registers_outb register value device _ := by
    rw [Nat.add_sub_cancel_left, RegisterPort.registers_write]
  traffic_outb register value device hlt hne hlatched := by
    rw [Nat.add_sub_cancel_left, device.traffic_write value hlt hne hlatched]
  traffic_fifoControl value device h := by
    rw [Nat.add_sub_cancel_left, device.traffic_fifoControl h]
  traffic_data value device hlatched hempty := by
    rw [Nat.add_sub_cancel_left, device.traffic_data value hlatched hempty]
  status_received device := by
    rw [Nat.add_sub_cancel_left]
    exact device.status_received
  status_transmitter device := by
    rw [Nat.add_sub_cancel_left]
    exact device.status_transmitter
  status_keeps device := by
    rw [Nat.add_sub_cancel_left]
    exact ⟨rfl, rfl⟩
  read_data device byte rest hlatched hreceived := by
    rw [Nat.add_sub_cancel_left]
    exact device.read_data hlatched hreceived
  moves_keeps _ _ _ h := h.keeps
  drains device := ⟨device.drained, device.moves_drained, rfl⟩

end SideHOS.Machine
