import SideHOS.Kernel.Heap

/-!
# The serial port and what is printed under its lock

`serial_init`, `serial_write` and `serial_write_str` of `serial.c`, `kputs` and `kputhex`, and the
code that prints while it holds `serial_lock`: `factorial`, `fibonacci` and the greeting of
`kmain`.  `serial_write` waits for the port and then sends a byte; it is one access here.

A processor that does not get the lock counts its tries and prints the count, so its spin loop is
not an `await`: `SerialThread.trying` is the loop, with the counter.
-/

namespace SideHOS.Kernel

open Machine.Word64 Sharing Sharing.Program

/-- One call of `serial_write`, one port write of `serial_init`, or one access to `serial_lock`. -/
inductive SerialAccess where
  | serialWrite (byte : UInt8)
  | outb (port : ℕ) (value : UInt8)
  | lockAcquire
  | lockRelease
  deriving DecidableEq

/-- The answer of an access and `serial_lock` after it. -/
def execSerial : SerialAccess → ℕ → ℕ × ℕ
  | .serialWrite _, lock => (0, lock)
  | .outb _ _, lock => (0, lock)
  | .lockAcquire, lock => if lock = 0 then (1, 1) else (0, lock)
  | .lockRelease, _ => (0, 0)

abbrev SerialCode (α : Type) := Program SerialAccess α

abbrev com1 : ℕ := 0x3F8

/-- `serial_init`.  The second write selects the divisor latch, and the fifth the data register. -/
def serialInit : SerialCode Unit := do
  let _ ← perform (.outb (com1 + 1) 0x00)
  let _ ← perform (.outb (com1 + 3) 0x80)
  let _ ← perform (.outb (com1 + 0) 0x03)
  let _ ← perform (.outb (com1 + 1) 0x00)
  let _ ← perform (.outb (com1 + 3) 0x03)
  let _ ← perform (.outb (com1 + 2) 0xC7)
  let _ ← perform (.outb (com1 + 4) 0x0B)
  pure ()

/-- `serial_write_str` from `index` on.  The index is an `int8_t`, so after 256 steps without a
`NUL` it has taken all its values, and the loop never ends. -/
def serialWriteStrFrom (s : ℤ → UInt8) : ℕ → ℕ → SerialCode Unit
  | 0, _ => .diverge
  | fuel + 1, index =>
    if s (int8 index) = 0 then pure ()
    else do
      let _ ← perform (.serialWrite (s (int8 index)))
      serialWriteStrFrom s fuel ((index + 1) % 256)

def serialWriteStr (s : ℤ → UInt8) : SerialCode Unit := serialWriteStrFrom s 256 0

def kputs (str : ℤ → UInt8) : SerialCode Unit := serialWriteStr str

/-- The digit that `kputhex` writes for a nibble. -/
def hexDigit (nibble : ℕ) : UInt8 :=
  if nibble < 10 then (48 + nibble).toUInt8 else (97 + nibble - 10).toUInt8

/-- The loop of `kputhex` over the last nibbles. -/
def kputhexFrom (value : ℕ) : ℕ → Bool → SerialCode Unit
  | 0, started =>
    if !started then do
      let _ ← perform (.serialWrite 48)
      pure ()
    else pure ()
  | nibbles + 1, started =>
    let shift := 4 * nibbles
    let nibble := value / 2 ^ shift % 16
    if !started && decide (nibble = 0 ∧ shift ≠ 0) then kputhexFrom value nibbles started
    else do
      let _ ← perform (.serialWrite (hexDigit nibble))
      kputhexFrom value nibbles true

def kputhex (value : ℕ) : SerialCode Unit := do
  let _ ← perform (.serialWrite 48)
  let _ ← perform (.serialWrite 120)
  kputhexFrom value 16 false

def textBytes (text : String) : List UInt8 := text.toList.map fun c ↦ c.toNat.toUInt8

/-- A string literal in memory, with a `NUL` after its last byte. -/
def literal (text : String) (index : ℤ) : UInt8 := (textBytes text).getD index.toNat 0

/-- `for (uint64_t i = 2; i <= n; i++) result *= i;`, or nothing if the loop never ends. -/
def factorialLoop (n : ℕ) : ℕ → ℕ → ℕ → Option ℕ
  | 0, _, _ => none
  | fuel + 1, i, result =>
    if i ≤ n then factorialLoop n fuel (add i 1) (mul result i) else some result

/-- `for (uint64_t i = 2; i <= n; i++)` of `fibonacci`, or nothing if the loop never ends. -/
def fibonacciLoop (n : ℕ) : ℕ → ℕ → ℕ → ℕ → Option ℕ
  | 0, _, _, _ => none
  | fuel + 1, i, a, b =>
    if i ≤ n then fibonacciLoop n fuel (add i 1) b (add a b) else some b

/-- Code that prints under `serial_lock`. -/
inductive Printer where
  | factorial (n : ℕ)
  | fibonacci (n : ℕ)
  | greeting

/-- What `factorial` and `fibonacci` print, and the end of their critical section. -/
def printLine (name : String) (n result i : ℕ) : SerialCode Unit := do
  kputs (literal "Lock tries - ")
  kputhex i
  kputs (literal " - ")
  kputs (literal name)
  kputhex n
  kputs (literal " - ")
  kputhex result
  kputs (literal "\r\n")
  let _ ← perform .lockRelease
  pure ()

/-- The critical section of a printer, given how often it tried to take the lock; nothing if it
does not come to the lock. -/
def criticalSection : Printer → Option (ℕ → SerialCode Unit)
  | .factorial n => (factorialLoop n walkFuel 2 1).map (printLine "Factorial - " n)
  | .fibonacci n =>
    if n < 2 then none else (fibonacciLoop n walkFuel 2 0 1).map (printLine "Fibonacci - " n)
  | .greeting => some fun _ ↦ do
    kputs (literal "Hello, World!\r\n")
    let _ ← perform .lockRelease
    pure ()

/-- A processor away from the serial port, in the spin loop on `serial_lock`, or in a critical
section. -/
inductive SerialThread where
  | idle
  | trying (printer : Printer) (body : ℕ → SerialCode Unit) (i : ℕ)
  | inside (position : ℕ) (rest : SerialCode Unit)

/-- One passing of the spin loop: who, what it prints, and the number of tries. -/
structure Entry (Proc : Type) where
  proc : Proc
  printer : Printer
  i : ℕ

/-- `serial_lock`, the processors, the critical sections in the order in which they were entered,
and the bytes passed to `serial_write` so far, each with the critical section that passed it. -/
structure SerialConfig (Proc : Type) where
  serialLock : ℕ
  thread : Proc → SerialThread
  entered : List (Entry Proc)
  written : List (ℕ × UInt8)

inductive SerialEvent (Proc : Type) where
  | start (proc : Proc) (printer : Printer)
  | retry (proc : Proc)
  | enter (proc : Proc)
  | access (proc : Proc) (operation : SerialAccess)
  | leave (proc : Proc)

def SerialAccess.bytes : SerialAccess → List UInt8
  | .serialWrite byte => [byte]
  | _ => []

variable {Proc : Type} [DecidableEq Proc]

inductive SerialStep : SerialConfig Proc → SerialEvent Proc → SerialConfig Proc → Prop
  | start (config : SerialConfig Proc) (proc : Proc) (printer : Printer)
      (body : ℕ → SerialCode Unit) (hthread : config.thread proc = .idle)
      (hbody : criticalSection printer = some body) :
      SerialStep config (.start proc printer)
        { config with thread := Function.update config.thread proc (.trying printer body 0) }
  | retry (config : SerialConfig Proc) (proc : Proc) (printer : Printer)
      (body : ℕ → SerialCode Unit) (i : ℕ) (hthread : config.thread proc = .trying printer body i)
      (hfail : (execSerial .lockAcquire config.serialLock).1 = 0) :
      SerialStep config (.retry proc)
        { config with
          serialLock := (execSerial .lockAcquire config.serialLock).2
          thread := Function.update config.thread proc (.trying printer body (add i 1)) }
  | enter (config : SerialConfig Proc) (proc : Proc) (printer : Printer)
      (body : ℕ → SerialCode Unit) (i : ℕ) (hthread : config.thread proc = .trying printer body i)
      (hsuccess : (execSerial .lockAcquire config.serialLock).1 ≠ 0) :
      SerialStep config (.enter proc)
        { config with
          serialLock := (execSerial .lockAcquire config.serialLock).2
          thread := Function.update config.thread proc (.inside config.entered.length (body i))
          entered := config.entered ++ [⟨proc, printer, i⟩] }
  | access (config : SerialConfig Proc) (proc : Proc) (position : ℕ) (operation : SerialAccess)
      (next : ℕ → SerialCode Unit)
      (hthread : config.thread proc = .inside position (.access operation next)) :
      SerialStep config (.access proc operation)
        { config with
          serialLock := (execSerial operation config.serialLock).2
          thread := Function.update config.thread proc
            (.inside position (next (execSerial operation config.serialLock).1))
          written := config.written ++ operation.bytes.map (position, ·) }
  | leave (config : SerialConfig Proc) (proc : Proc) (position : ℕ)
      (hthread : config.thread proc = .inside position (.done ())) :
      SerialStep config (.leave proc)
        { config with thread := Function.update config.thread proc .idle }

/-- `serial_lock` free, nothing written, and every processor away from the port. -/
def silent : SerialConfig Proc where
  serialLock := 0
  thread _ := .idle
  entered := []
  written := []

end SideHOS.Kernel
