import SideHOS.Kernel.Compare
import SideHOS.Kernel.Input
import SideHOS.Kernel.Shell

/-!
# The console

The loop at the end of `kmain`, with every byte of `CommandContext`: `kgets` reads a line into it,
`kshell` compares it with the names of the commands by `strcmp` and clears it.  The names are
literals somewhere in memory.
-/

namespace SideHOS.Kernel.Console

open Machine.Word64 Machine.ByteMemory Sharing Sharing.Program

/-- The state of the shell, the kernel's own memory, and the bytes that the port is still to
deliver. -/
@[ext]
structure ConsoleState where
  shell : ShellState
  memory : Memory
  received : List UInt8

/-- An access of a command, a load or a store of a byte, or an access of `serial_read`. -/
inductive ConsoleAccess where
  | shell (operation : ShellAccess)
  | load (address : ℕ)
  | store (address : ℕ) (byte : UInt8)
  | serialReceived
  | inb

def execConsole : ConsoleAccess → ConsoleState → ℕ × ConsoleState
  | .shell operation, state =>
    ((execShell operation state.shell).1,
      { state with shell := (execShell operation state.shell).2 })
  | .load address, state => ((state.memory address).toNat, state)
  | .store address byte, state => (0, { state with memory := store8 state.memory address byte })
  | .serialReceived, state => (if state.received = [] then 0 else 1, state)
  | .inb, state =>
    ((state.received.headD 0).toNat, { state with received := state.received.tail })

abbrev ConsoleCode (α : Type) := Program ConsoleAccess α

def inShell {α : Type} (code : ShellCode α) : ConsoleCode α := embed .shell code

def readName : Input.InputAccess → ConsoleAccess
  | .store address byte => .store address byte
  | .serialReceived => .serialReceived
  | .inb => .inb
  | .serialWrite byte => .shell (.serial (.serialWrite byte))

def reading {α : Type} (code : Input.InputCode α) : ConsoleCode α := embed readName code

def byteName : Copy.ByteAccess → ConsoleAccess
  | .load address => .load address
  | .store address byte => .store address byte

def comparing {α : Type} (code : Copy.ByteCode α) : ConsoleCode α := embed byteName code

/-- The commands of `kshell` with their names, in the order in which it tries them. -/
def commands (hhdmOffset : ℕ) : List (String × ShellCode Unit) :=
  [("ping", putText "pong"),
    ("sse", putText "SSE\r\n"),
    ("malloc", mallocCommand hhdmOffset),
    ("frame", frameCommand (memoryAllocateFrame hhdmOffset)),
    ("frames", frameCommand (memoryAllocateFrames hhdmOffset 5)),
    ("free", freeCommand hhdmOffset),
    ("freeframe", freeframeCommand memoryFreeFrame),
    ("freeframes", freeframeCommand fun frame ↦ memoryFreeFrames frame 5),
    ("freelist", freelistCommand),
    ("hhdm", do
      putText "hhdm="
      putHex hhdmOffset
      putText "\r\n"),
    ("heapdump", heapdumpCommand)]

/-- `if (strcmp(CommandContext.command, name) == 0) …` for one command after another, and the last
`else`. -/
def tryCommands (command : ℕ) (nameAt : String → ℕ) (fuel : ℕ) :
    List (String × ShellCode Unit) → ConsoleCode Unit
  | [] => inShell (putText "Invalid command")
  | entry :: entries => do
    let order ← comparing (Compare.strcmp fuel command (nameAt entry.1))
    if order = 0 then inShell entry.2 else tryCommands command nameAt fuel entries

/-- Stores of zeros into `count` bytes. -/
def clear (address : ℕ) : ℕ → ConsoleCode Unit
  | 0 => pure ()
  | count + 1 => do
    let _ ← perform (.store address 0)
    clear (add address 1) count

abbrev commandContextSize : ℕ := 256

/-- `kshell`, if its calls of `strcmp` end within `fuel` turns. -/
def kshell (hhdmOffset commandContext : ℕ) (nameAt : String → ℕ) (fuel : ℕ) : ConsoleCode Unit := do
  tryCommands (Input.command commandContext) nameAt fuel (commands hhdmOffset)
  clear commandContext commandContextSize

/-- One turn of the loop, if what it calls ends within `fuel` turns. -/
def turn (hhdmOffset commandContext : ℕ) (nameAt : String → ℕ) (fuel : ℕ) : ConsoleCode Unit := do
  inShell (putText ">")
  let _ ← reading (Input.kgets commandContext fuel)
  kshell hhdmOffset commandContext nameAt fuel
  inShell (putText "\r\n")

def turns (hhdmOffset commandContext : ℕ) (nameAt : String → ℕ) (fuel : ℕ) : ℕ → ConsoleCode Unit
  | 0 => pure ()
  | count + 1 => do
    turn hhdmOffset commandContext nameAt fuel
    turns hhdmOffset commandContext nameAt fuel count

end SideHOS.Kernel.Console
