import SideHOS.Kernel.Copy

/-!
# Comparing memory

`memcmp` and `strcmp` of `kernel.h`, one load of a byte at a time.  Both go on as long as the bytes
are equal, `strcmp` also only up to the `NUL` of its first string.
-/

namespace SideHOS.Kernel.Compare

open Kernel.Copy Machine.Word64 Sharing Sharing.Program

/-- `for (size_t i = 0; i < n; i++)` of `memcmp` from `i` on, with `n - i` turns left. -/
def memcmpFrom (p1 p2 i : ℕ) : ℕ → ByteCode ℤ
  | 0 => pure 0
  | turns + 1 => do
    let first ← perform (.load (add p1 i))
    let second ← perform (.load (add p2 i))
    if first ≠ second then do
      let first ← perform (.load (add p1 i))
      let second ← perform (.load (add p2 i))
      pure (if first < second then -1 else 1)
    else memcmpFrom p1 p2 (i + 1) turns

def memcmp (s1 s2 n : ℕ) : ByteCode ℤ := memcmpFrom s1 s2 0 n

/-- `*(unsigned char*)a - *(unsigned char*)b`. -/
def difference (a b : ℕ) : ByteCode ℤ := do
  let first ← perform (.load a)
  let second ← perform (.load b)
  pure ((first : ℤ) - second)

/-- `strcmp`, if its loop ends within `fuel` turns. -/
def strcmp : ℕ → ℕ → ℕ → ByteCode ℤ
  | 0, _, _ => .diverge
  | fuel + 1, a, b => do
    let character ← perform (.load a)
    if character ≠ 0 then do
      let first ← perform (.load a)
      let second ← perform (.load b)
      if first = second then strcmp fuel (add a 1) (add b 1) else difference a b
    else difference a b

end SideHOS.Kernel.Compare
