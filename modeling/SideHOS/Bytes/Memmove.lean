import SideHOS.Kernel.Copy
import SideHOS.Machine.ByteCopy

/-!
# Moving bytes

Copying upwards is a copy if the source is not below the destination or ends before it, and copying
downwards is one if the source is not above.  `memmove` chooses the direction accordingly, so it
copies under every overlap.
-/

namespace SideHOS.Bytes

open Kernel.Copy Machine.Word64 Machine.ByteMemory Sharing Sharing.Program

section Copying

variable {memory : Memory} {dest src n i turns : ℕ}

/-- One turn of either loop. -/
theorem run_turn (next : ByteCode Unit) (hdest : dest + i < 2 ^ 64) (hsrc : src + i < 2 ^ 64) :
    run execByte (perform (.load (add src i)) >>= fun byte ↦
        perform (.store (add dest i) byte.toUInt8) >>= fun _ ↦ next) memory =
      run execByte next (store8 memory (dest + i) (memory (src + i))) := by
  rw [run_perform_bind, run_perform_bind, add_of_lt hdest, add_of_lt hsrc]
  simp only [execByte, Nat.toUInt8_eq, UInt8.ofNat_toNat]

/-- Copying upwards. -/
theorem run_copyUp (hdest : dest + (i + turns) ≤ 2 ^ 64) (hsrc : src + (i + turns) ≤ 2 ^ 64)
    (horder : dest ≤ src ∨ src + (i + turns) ≤ dest + i) :
    run execByte (copyUp dest src i turns) memory =
      some ((), copy memory (dest + i) (src + i) turns) := by
  induction turns generalizing memory i with
  | zero => rw [copyUp, run_pure, copy_zero]
  | succ turns ih =>
    rw [copyUp, run_turn _ (by omega) (by omega), ih (by omega) (by omega) (by omega),
      ← copy_store8_first (by omega)]
    rfl

/-- Copying downwards. -/
theorem run_copyDown (hdest : dest + i ≤ 2 ^ 64) (hsrc : src + i ≤ 2 ^ 64) (horder : src ≤ dest) :
    run execByte (copyDown dest src i) memory = some ((), copy memory dest src i) := by
  induction i generalizing memory with
  | zero => rw [copyDown, run_pure, copy_zero]
  | succ i ih =>
    rw [copyDown, run_turn _ (by omega) (by omega), ih (by omega) (by omega),
      copy_store8_last (Or.inl horder)]

/-- `memmove` copies between any two ranges. -/
theorem run_memmove (hdest : dest + n ≤ 2 ^ 64) (hsrc : src + n ≤ 2 ^ 64) :
    run execByte (memmove dest src n) memory = some (dest, copy memory dest src n) := by
  change run execByte (if dest < src then copyUp dest src 0 n >>= fun _ ↦ pure dest
    else if src < dest then copyDown dest src n >>= fun _ ↦ pure dest else pure dest) memory = _
  rcases lt_trichotomy dest src with hup | heq | hdown
  · rw [if_pos hup]
    apply run_bind_of_eq
    exact run_copyUp (by omega) (by omega) (by omega)
  · rw [heq, if_neg (lt_irrefl src), if_neg (lt_irrefl src), run_pure, copy_self]
  · rw [if_neg (by omega), if_pos hdown]
    apply run_bind_of_eq
    exact run_copyDown hdest hsrc hdown.le

/-- `memmove` returns its destination.  It has moved every byte, and changed no other. -/
theorem memmove_moves (memory : Memory) (hdest : dest + n ≤ 2 ^ 64) (hsrc : src + n ≤ 2 ^ 64) :
    ∃ after, run execByte (memmove dest src n) memory = some (dest, after) ∧
      (∀ i < n, after (dest + i) = memory (src + i)) ∧
      ∀ x, x < dest ∨ dest + n ≤ x → after x = memory x :=
  ⟨copy memory dest src n, run_memmove hdest hsrc, fun _ ↦ copy_of_inside, fun _ ↦ copy_of_outside⟩

/-- Four bytes moved up by one, from 16 to 17. -/
theorem memmove_moves_up :
    ∃ after, run execByte (memmove 17 16 4) (fun x ↦ x.toUInt8) = some (17, after) ∧
      (∀ i < 4, after (17 + i) = (16 + i).toUInt8) ∧
      ∀ x, x < 17 ∨ 17 + 4 ≤ x → after x = x.toUInt8 :=
  memmove_moves (fun x ↦ x.toUInt8) (by norm_num) (by norm_num)

end Copying

end SideHOS.Bytes
