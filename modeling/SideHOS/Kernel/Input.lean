import SideHOS.Machine.ByteMemory
import SideHOS.Machine.Word64
import SideHOS.Sharing.Program

/-!
# Reading a line

`serial_read` and `serial_read_str` of `serial.c`, and `kgets` with the `CommandContext` that it
reads into.  The port has a sequence of bytes to deliver, and a program that waits for a byte after
the last of them never ends.  `serial_write` is one access, as in what the port writes.
-/

namespace SideHOS.Kernel.Input

open Machine.Word64 Machine.ByteMemory Sharing Sharing.Program

/-- One store of a byte, `serial_received`, the `inb` of `serial_read`, or one call of
`serial_write`. -/
inductive InputAccess where
  | store (address : ℕ) (byte : UInt8)
  | serialReceived
  | inb
  | serialWrite (byte : UInt8)
  deriving DecidableEq

/-- The memory, and the bytes that the port is still to deliver. -/
structure InputState where
  memory : Memory
  received : List UInt8

def execInput : InputAccess → InputState → ℕ × InputState
  | .store address byte, state => (0, { state with memory := store8 state.memory address byte })
  | .serialReceived, state => (if state.received = [] then 0 else 1, state)
  | .inb, state =>
    ((state.received.headD 0).toNat, { state with received := state.received.tail })
  | .serialWrite _, state => (0, state)

abbrev InputCode (α : Type) := Program InputAccess α

def serialRead : InputCode UInt8 :=
  .await .serialReceived do
    let byte ← perform .inb
    pure byte.toUInt8

/-- `max_len` of `serial_read_str`. -/
abbrev maxLen : ℕ := 255

/-- Up to `fuel` turns of the loop of `serial_read_str`, from `index` on, and the store after it. -/
def serialReadStrFrom (buffer : ℕ) : ℕ → ℕ → InputCode Unit
  | 0, _ => .diverge
  | fuel + 1, index => do
    let character ← serialRead
    if character = 13 ∨ character = 10 then do
      let _ ← perform (.serialWrite 13)
      let _ ← perform (.serialWrite 10)
      let _ ← perform (.store (add buffer index) 0)
      pure ()
    else if (character = 8 ∨ character = 127) ∧ index > 0 then do
      let _ ← perform (.serialWrite 8)
      let _ ← perform (.serialWrite 32)
      let _ ← perform (.serialWrite 8)
      let _ ← perform (.store (add buffer (index - 1)) 0)
      serialReadStrFrom buffer fuel (index - 1)
    else if index < maxLen then do
      let _ ← perform (.serialWrite character)
      let _ ← perform (.store (add buffer index) character)
      let _ ← perform (.store (add buffer (index + 1)) 0)
      serialReadStrFrom buffer fuel (index + 1)
    else serialReadStrFrom buffer fuel index

/-- `serial_read_str`, if it ends within `fuel` turns. -/
def serialReadStr (buffer fuel : ℕ) : InputCode Unit := serialReadStrFrom buffer fuel 0

/-- The size of `CommandContext.command`, `UINT8_MAX`. -/
abbrev commandSize : ℕ := 255

abbrev command (commandContext : ℕ) : ℕ := commandContext

/-- `CommandContext.cursor`, the byte after `command`. -/
abbrev cursor (commandContext : ℕ) : ℕ := add commandContext commandSize

/-- `kgets`, if it ends within `fuel` turns. -/
def kgets (commandContext fuel : ℕ) : InputCode ℕ := do
  serialReadStr (command commandContext) fuel
  pure (command commandContext)

end SideHOS.Kernel.Input
