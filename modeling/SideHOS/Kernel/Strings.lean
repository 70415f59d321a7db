import SideHOS.Kernel.Serial

/-!
# Strings in memory

`serial_write_str` and `kputs` on a string somewhere in memory, with every byte they load.  The
index of the loop is an `int8_t` used as a subscript: after 127 it is -128, and the loop goes on
below the string.
-/

namespace SideHOS.Kernel.Strings

open Machine.Word64 Machine.ByteMemory Sharing Sharing.Program

/-- One load of a byte, or one call of `serial_write`. -/
inductive StringAccess where
  | load (address : ℕ)
  | serialWrite (byte : UInt8)
  deriving DecidableEq

def execString : StringAccess → Memory → ℕ × Memory
  | .load address, memory => ((memory address).toNat, memory)
  | .serialWrite _, memory => (0, memory)

abbrev StringCode (α : Type) := Program StringAccess α

/-- The address of `s[index]`. -/
def element (s : ℕ) (index : ℤ) : ℕ := ((s + index) % 2 ^ 64).toNat

/-- Up to `fuel` turns of the loop of `serial_write_str`, from `index` on. -/
def serialWriteStrFrom (s : ℕ) : ℕ → ℕ → StringCode Unit
  | 0, _ => .diverge
  | fuel + 1, index => do
    let test ← perform (.load (element s (int8 index)))
    if test = 0 then pure ()
    else do
      let c ← perform (.load (element s (int8 index)))
      let _ ← perform (.serialWrite c.toUInt8)
      serialWriteStrFrom s fuel ((index + 1) % 256)

/-- `serial_write_str`, if it ends within `fuel` turns. -/
def serialWriteStr (s fuel : ℕ) : StringCode Unit := serialWriteStrFrom s fuel 0

def kputs (str fuel : ℕ) : StringCode Unit := serialWriteStr str fuel

end SideHOS.Kernel.Strings
