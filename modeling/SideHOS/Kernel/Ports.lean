import SideHOS.Kernel.Input
import SideHOS.Kernel.Serial
import SideHOS.Machine.Uart
import SideHOS.Sharing.Guarded

/-!
# The serial port, one port access at a time

`serial_can_send`, `serial_received`, `serial_write` and `serial_read` of `serial.c` as what they
are on the device: `inb` and `outb`.  `toPorts` puts the body of `serial_write` in place of its
calls in code that prints, and `inputToPorts` does so in `serial_read_str`.

`PortStep` is a step of one of any number of processors that print, or a move of the device, which
sends and receives at its own speed.
-/

namespace SideHOS.Kernel

open Machine Machine.Word64 Machine.ByteMemory Sharing Sharing.Program

/-- `inb(port) & mask`, `outb(port, value)`, an access to `serial_lock`, or a store of a byte. -/
inductive PortAccess where
  | inb (port : ℕ) (mask : UInt8)
  | outb (port : ℕ) (value : UInt8)
  | lockAcquire
  | lockRelease
  | store (address : ℕ) (byte : UInt8)
  deriving DecidableEq

/-- The device, `serial_lock` and the memory. -/
@[ext]
structure PortState (Device : Type) where
  device : Device
  serialLock : ℕ
  memory : Memory

variable {Device : Type}

def execPort (uart : Uart Device com1) :
    PortAccess → PortState Device → ℕ × PortState Device
  | .inb port mask, state =>
    (((uart.inb port state.device).1 &&& mask).toNat,
      { state with device := (uart.inb port state.device).2 })
  | .outb port value, state => (0, { state with device := uart.outb port value state.device })
  | .lockAcquire, state =>
    if state.serialLock = 0 then (1, { state with serialLock := 1 }) else (0, state)
  | .lockRelease, state => (0, { state with serialLock := 0 })
  | .store address byte, state => (0, { state with memory := store8 state.memory address byte })

abbrev PortCode (α : Type) := Program PortAccess α

abbrev serialCanSend : PortAccess := .inb (com1 + 5) 0x20

abbrev serialReceived : PortAccess := .inb (com1 + 5) 1

/-- `serial_write`.  What `outb` answers is of no use. -/
def serialWrite (c : UInt8) : PortCode ℕ := .await serialCanSend (perform (.outb (com1 + 0) c))

def serialRead : PortCode UInt8 :=
  .await serialReceived do
    let byte ← perform (.inb (com1 + 0) 0xFF)
    pure byte.toUInt8

/-- The loop of `serial_write`. -/
def serialGuard : SerialAccess → Option PortAccess
  | .serialWrite _ => some serialCanSend
  | _ => none

/-- The `outb` of `serial_write`, and the other accesses as they are. -/
def serialName : SerialAccess → PortAccess
  | .serialWrite byte => .outb (com1 + 0) byte
  | .outb port value => .outb port value
  | .lockAcquire => .lockAcquire
  | .lockRelease => .lockRelease

/-- Code that prints, with the body of `serial_write` in place of each call. -/
def toPorts {α : Type} (code : SerialCode α) : PortCode α := guarded serialGuard serialName code

/-- The calls of `serial_write` are what `serial_write` is. -/
theorem toPorts_serialWrite {α : Type} (byte : UInt8) (next : ℕ → SerialCode α) :
    toPorts (.access (.serialWrite byte) next) =
      serialWrite byte >>= fun answer ↦ toPorts (next answer) := rfl

/-- The loop of `serial_write` in what `serial_read_str` echoes. -/
def inputGuard : Input.InputAccess → Option PortAccess
  | .serialWrite _ => some serialCanSend
  | _ => none

/-- The `inb` and `outb` of `serial_read_str`, and its stores. -/
def inputName : Input.InputAccess → PortAccess
  | .store address byte => .store address byte
  | .serialReceived => serialReceived
  | .inb => .inb (com1 + 0) 0xFF
  | .serialWrite byte => .outb (com1 + 0) byte

/-- Code that reads a line, with the body of `serial_write` in place of each call. -/
def inputToPorts {α : Type} (code : Input.InputCode α) : PortCode α :=
  guarded inputGuard inputName code

theorem inputToPorts_serialWrite {α : Type} (byte : UInt8) (next : ℕ → Input.InputCode α) :
    inputToPorts (.access (.serialWrite byte) next) =
      serialWrite byte >>= fun answer ↦ inputToPorts (next answer) := rfl

/-- The calls of `serial_read` are what `serial_read` is. -/
theorem inputToPorts_serialRead {α : Type} (next : UInt8 → Input.InputCode α) :
    inputToPorts (Input.serialRead >>= next) =
      serialRead >>= fun byte ↦ inputToPorts (next byte) := rfl

/-- A processor away from the serial port, in the spin loop on `serial_lock`, or in a critical
section. -/
inductive PortThread where
  | idle
  | trying (printer : Printer) (body : ℕ → PortCode Unit) (i : ℕ)
  | inside (position : ℕ) (rest : PortCode Unit)

/-- The device with `serial_lock`, the processors, and the critical sections in the order in which
they were entered. -/
structure PortConfig (Device Proc : Type) where
  port : PortState Device
  thread : Proc → PortThread
  entered : List (Entry Proc)

variable {Proc : Type} [DecidableEq Proc]

inductive PortStep (uart : Uart Device com1) :
    PortConfig Device Proc → PortConfig Device Proc → Prop
  | start (config : PortConfig Device Proc) (proc : Proc) (printer : Printer)
      (body : ℕ → SerialCode Unit) (hthread : config.thread proc = .idle)
      (hbody : criticalSection printer = some body) :
      PortStep uart config
        { config with
          thread := Function.update config.thread proc (.trying printer (toPorts ∘ body) 0) }
  | retry (config : PortConfig Device Proc) (proc : Proc) (printer : Printer)
      (body : ℕ → PortCode Unit) (i : ℕ) (hthread : config.thread proc = .trying printer body i)
      (hfail : (execPort uart .lockAcquire config.port).1 = 0) :
      PortStep uart config
        { config with
          port := (execPort uart .lockAcquire config.port).2
          thread := Function.update config.thread proc (.trying printer body (add i 1)) }
  | enter (config : PortConfig Device Proc) (proc : Proc) (printer : Printer)
      (body : ℕ → PortCode Unit) (i : ℕ) (hthread : config.thread proc = .trying printer body i)
      (hsuccess : (execPort uart .lockAcquire config.port).1 ≠ 0) :
      PortStep uart config
        { port := (execPort uart .lockAcquire config.port).2
          thread := Function.update config.thread proc (.inside config.entered.length (body i))
          entered := config.entered ++ [⟨proc, printer, i⟩] }
  | access (config : PortConfig Device Proc) (proc : Proc) (position : ℕ)
      (rest later : PortCode Unit) (port : PortState Device)
      (hthread : config.thread proc = .inside position rest)
      (hadvance : Advance (execPort uart) rest config.port later port) :
      PortStep uart config
        { config with
          port := port
          thread := Function.update config.thread proc (.inside position later) }
  | leave (config : PortConfig Device Proc) (proc : Proc) (position : ℕ)
      (hthread : config.thread proc = .inside position (.done ())) :
      PortStep uart config
        { config with thread := Function.update config.thread proc .idle }
  | device (config : PortConfig Device Proc) (bytes : List UInt8) (after : Device)
      (hmoves : uart.moves config.port.device bytes after) :
      PortStep uart config { config with port.device := after }

def portSilent (port : PortState Device) : PortConfig Device Proc where
  port := port
  thread _ := .idle
  entered := []

end SideHOS.Kernel
