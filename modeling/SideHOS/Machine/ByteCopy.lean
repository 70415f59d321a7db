import SideHOS.Machine.ByteMemory

/-!
# Copies of byte ranges

`copy` is the memory after a range has been copied, whatever the two ranges have in common.  The
lemmas below take one byte off the copy: the first byte can be stored before the rest if the source
is not below the destination, and the last byte if it is not above.  In both cases the store leaves
alone what is still to be read.
-/

namespace SideHOS.Machine.ByteMemory

/-- The bytes from `dest` on replaced by `count` bytes from `src` on. -/
def copy (memory : Memory) (dest src count : ℕ) : Memory :=
  fun x ↦ if dest ≤ x ∧ x < dest + count then memory (src + (x - dest)) else memory x

section Copy

variable {memory : Memory} {dest src count i x : ℕ}

theorem copy_of_inside (hi : i < count) :
    copy memory dest src count (dest + i) = memory (src + i) := by
  rw [copy, if_pos ⟨Nat.le_add_right dest i, Nat.add_lt_add_left hi dest⟩, Nat.add_sub_cancel_left]

theorem copy_of_outside (h : x < dest ∨ dest + count ≤ x) :
    copy memory dest src count x = memory x := by
  rw [copy, if_neg (by omega)]

@[simp]
theorem copy_zero : copy memory dest src 0 = memory := by
  funext x
  exact copy_of_outside (by omega)

/-- Copying a range to itself changes nothing. -/
theorem copy_self : copy memory dest dest count = memory := by
  funext x
  by_cases hx : dest ≤ x ∧ x < dest + count
  · rw [copy, if_pos hx, Nat.add_sub_cancel' hx.1]
  · rw [copy, if_neg hx]

/-- The first byte first: no later byte is read where it was stored. -/
theorem copy_store8_first (h : dest ≤ src ∨ src + count < dest) :
    copy (store8 memory dest (memory src)) (dest + 1) (src + 1) count =
      copy memory dest src (count + 1) := by
  funext x
  by_cases hfirst : x = dest
  · calc copy (store8 memory dest (memory src)) (dest + 1) (src + 1) count x
      _ = store8 memory dest (memory src) dest := by rw [copy_of_outside (by omega), hfirst]
      _ = memory src := Function.update_self _ _ _
      _ = copy memory dest src (count + 1) (dest + 0) := by
        rw [copy_of_inside (Nat.succ_pos count), add_zero]
      _ = copy memory dest src (count + 1) x := by rw [add_zero, hfirst]
  · by_cases hx : dest ≤ x ∧ x < dest + (count + 1)
    · have hsource : src + 1 + (x - (dest + 1)) = src + (x - dest) := by omega
      rw [copy, if_pos (by omega), copy, if_pos hx, hsource, store8_of_ne (by omega)]
    · rw [copy_of_outside (by omega), copy_of_outside (by omega), store8_of_ne hfirst]

/-- The last byte first: no earlier byte is read where it was stored. -/
theorem copy_store8_last (h : src ≤ dest ∨ dest + count < src) :
    copy (store8 memory (dest + count) (memory (src + count))) dest src count =
      copy memory dest src (count + 1) := by
  funext x
  by_cases hlast : x = dest + count
  · calc copy (store8 memory (dest + count) (memory (src + count))) dest src count x
      _ = store8 memory (dest + count) (memory (src + count)) (dest + count) := by
        rw [copy_of_outside (by omega), hlast]
      _ = memory (src + count) := Function.update_self _ _ _
      _ = copy memory dest src (count + 1) (dest + count) := by
        rw [copy_of_inside (Nat.lt_succ_self count)]
      _ = copy memory dest src (count + 1) x := by rw [hlast]
  · by_cases hx : dest ≤ x ∧ x < dest + (count + 1)
    · rw [copy, if_pos (by omega), copy, if_pos hx, store8_of_ne (by omega)]
    · rw [copy_of_outside (by omega), copy_of_outside (by omega), store8_of_ne hlast]

end Copy

end SideHOS.Machine.ByteMemory
