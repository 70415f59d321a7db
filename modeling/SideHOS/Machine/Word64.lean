import Mathlib.Tactic

/-!
# Sixty-four bit words

Machine words are natural numbers below `2 ^ 64`.  The operations below are the wrapping unsigned
operations of the processor; each comes with the lemma which removes the wrap when the exact
result is in range.  `int8` is the reading of a byte as a signed eight-bit integer.
-/

namespace SideHOS.Machine.Word64

/-- Wrapping addition. -/
def add (left right : ℕ) : ℕ := (left + right) % 2 ^ 64

/-- Wrapping subtraction. -/
def sub (left right : ℕ) : ℕ := (left + (2 ^ 64 - right % 2 ^ 64)) % 2 ^ 64

/-- Wrapping multiplication. -/
def mul (left right : ℕ) : ℕ := (left * right) % 2 ^ 64

theorem add_of_lt {left right : ℕ} (h : left + right < 2 ^ 64) : add left right = left + right :=
  Nat.mod_eq_of_lt h

theorem sub_of_le {left right : ℕ} (h : right ≤ left) (hleft : left < 2 ^ 64) :
    sub left right = left - right := by
  unfold sub
  omega

theorem mul_of_lt {left right : ℕ} (h : left * right < 2 ^ 64) : mul left right = left * right :=
  Nat.mod_eq_of_lt h

theorem add_lt (left right : ℕ) : add left right < 2 ^ 64 := Nat.mod_lt _ (by norm_num)

/-- Adding a word and subtracting it again is the identity on words. -/
theorem sub_add_cancel {left right : ℕ} (hleft : left < 2 ^ 64) :
    sub (add left right) right = left := by
  unfold add sub
  omega

/-- A byte read as a signed eight-bit integer. -/
def int8 (byte : ℕ) : ℤ := if byte < 128 then byte else (byte : ℤ) - 256

theorem int8_of_lt {byte : ℕ} (h : byte < 128) : int8 byte = byte := if_pos h

theorem int8_neg {byte : ℕ} (h : 128 ≤ byte) (hbyte : byte < 256) : int8 byte < 0 := by
  unfold int8
  rw [if_neg (by omega)]
  omega

end SideHOS.Machine.Word64
