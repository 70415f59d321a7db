import SideHOS.Machine.ByteMemory
import SideHOS.Machine.Word64
import SideHOS.Sharing.Program

/-!
# Copying memory

`memmove` of `kernel.h`, one byte at a time.  It copies upwards if the destination is below the
source, downwards if the source is below the destination, and copies nothing if they are equal.
-/

namespace SideHOS.Kernel.Copy

open Machine.Word64 Machine.ByteMemory Sharing Sharing.Program

/-- One load or one store of a byte. -/
inductive ByteAccess where
  | load (address : ℕ)
  | store (address : ℕ) (byte : UInt8)
  deriving DecidableEq

def execByte : ByteAccess → Memory → ℕ × Memory
  | .load address, memory => ((memory address).toNat, memory)
  | .store address byte, memory => (0, store8 memory address byte)

abbrev ByteCode (α : Type) := Program ByteAccess α

/-- `for (size_t i = 0; i < n; i++) pdest[i] = psrc[i];` from `i` on, with `n - i` turns left. -/
def copyUp (pdest psrc i : ℕ) : ℕ → ByteCode Unit
  | 0 => pure ()
  | turns + 1 => do
    let byte ← perform (.load (add psrc i))
    let _ ← perform (.store (add pdest i) byte.toUInt8)
    copyUp pdest psrc (i + 1) turns

/-- `for (size_t i = n; i > 0; i--) pdest[i-1] = psrc[i-1];` from `i` on. -/
def copyDown (pdest psrc : ℕ) : ℕ → ByteCode Unit
  | 0 => pure ()
  | i + 1 => do
    let byte ← perform (.load (add psrc i))
    let _ ← perform (.store (add pdest i) byte.toUInt8)
    copyDown pdest psrc i

def memmove (dest src n : ℕ) : ByteCode ℕ := do
  if dest < src then copyUp dest src 0 n
  else if src < dest then copyDown dest src n
  pure dest

end SideHOS.Kernel.Copy
