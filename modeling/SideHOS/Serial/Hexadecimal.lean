import SideHOS.Serial.Output
import SideHOS.Sharing.Trace

/-!
# Reading back what `kputhex` writes

`kputhex` writes `0x` and a hexadecimal numeral without leading zeros, and the positional value of
the numeral is the argument.  So no two values are written in the same way.
-/

namespace SideHOS.Serial

open Kernel Sharing Sharing.Program

/-- A decimal digit, or one of the letters from `a` to `f`. -/
def IsHexDigit (digit : UInt8) : Prop := (48 ≤ digit ∧ digit ≤ 57) ∨ (97 ≤ digit ∧ digit ≤ 102)

instance (digit : UInt8) : Decidable (IsHexDigit digit) :=
  inferInstanceAs (Decidable ((48 ≤ digit ∧ digit ≤ 57) ∨ (97 ≤ digit ∧ digit ≤ 102)))

def hexValue (digit : UInt8) : ℕ := if digit ≤ 57 then digit.toNat - 48 else digit.toNat - 87

/-- The positional value of digits, most significant first. -/
def hexNumber (digits : List UInt8) : ℕ := Nat.ofDigits 16 (digits.reverse.map hexValue)

/-- One to sixteen digits without a leading zero, or a single zero, that stand for the value. -/
structure IsNumeral (digits : List UInt8) (value : ℕ) : Prop where
  length_pos : 1 ≤ digits.length
  length_le : digits.length ≤ 16
  isHexDigit : ∀ digit ∈ digits, IsHexDigit digit
  hexNumber_eq : hexNumber digits = value
  eq_zero : value = 0 → digits = [48]
  no_leading_zero : value ≠ 0 → digits.head? ≠ some 48

/-- The bytes that a program passes to `serial_write`. -/
def emitted (program : SerialCode Unit) (lock : ℕ) : List UInt8 :=
  (accesses execSerial program lock).flatMap SerialAccess.bytes

section Numerals

variable {value nibble lock : ℕ} {bytes : List UInt8}

theorem isHexDigit_hexDigit (h : nibble < 16) : IsHexDigit (hexDigit nibble) := by
  have hall : ∀ n < 16, IsHexDigit (hexDigit n) := by decide
  exact hall nibble h

theorem hexValue_hexDigit (h : nibble < 16) : hexValue (hexDigit nibble) = nibble := by
  have hall : ∀ n < 16, hexValue (hexDigit n) = n := by decide
  exact hall nibble h

/-- Only the digit of zero is written as `0`. -/
theorem hexDigit_ne_zero (h : nibble < 16) (hne : nibble ≠ 0) : hexDigit nibble ≠ 48 := by
  have hall : ∀ n < 16, n ≠ 0 → hexDigit n ≠ 48 := by decide
  exact hall nibble h hne

theorem hexDigits_zero : hexDigits 0 = [48] := rfl

theorem hexDigits_of_ne_zero (h : value ≠ 0) :
    hexDigits value = ((Nat.digits 16 value).map hexDigit).reverse := if_neg h

theorem map_hexValue_digits :
    ((Nat.digits 16 value).map hexDigit).map hexValue = Nat.digits 16 value := by
  rw [List.map_map]
  calc (Nat.digits 16 value).map (hexValue ∘ hexDigit)
    _ = (Nat.digits 16 value).map id :=
      List.map_congr_left fun digit hdigit ↦
        hexValue_hexDigit (Nat.digits_lt_base (by norm_num) hdigit)
    _ = Nat.digits 16 value := List.map_id _

/-- The positional value of what is written for a number is the number. -/
theorem hexNumber_hexDigits : hexNumber (hexDigits value) = value := by
  by_cases hzero : value = 0
  · rw [hzero]
    rfl
  · calc hexNumber (hexDigits value)
      _ = Nat.ofDigits 16 (((Nat.digits 16 value).map hexDigit).map hexValue) := by
        rw [hexNumber, hexDigits_of_ne_zero hzero, List.reverse_reverse]
      _ = Nat.ofDigits 16 (Nat.digits 16 value) := by rw [map_hexValue_digits]
      _ = value := Nat.ofDigits_digits 16 value

theorem head_hexDigits_ne (h : value ≠ 0) : (hexDigits value).head? ≠ some 48 := by
  have hdigits : Nat.digits 16 value ≠ [] := Nat.digits_ne_nil_iff_ne_zero.mpr h
  have hlast : (Nat.digits 16 value).getLast hdigits < 16 :=
    Nat.digits_lt_base (by norm_num) (List.getLast_mem hdigits)
  rw [hexDigits_of_ne_zero h, List.head?_reverse, List.getLast?_map,
    List.getLast?_eq_some_getLast hdigits, Option.map_some]
  intro hsome
  exact hexDigit_ne_zero hlast (Nat.getLast_digit_ne_zero 16 h) (Option.some.inj hsome)

/-- What is written for a 64-bit number is a numeral. -/
theorem isNumeral_hexDigits (h : value < 2 ^ 64) : IsNumeral (hexDigits value) value := by
  by_cases hzero : value = 0
  · rw [hzero, hexDigits_zero]
    exact ⟨le_rfl, by norm_num, List.forall_mem_singleton.mpr (by decide), rfl, fun _ ↦ rfl,
      fun hne ↦ absurd rfl hne⟩
  · refine ⟨?_, ?_, ?_, hexNumber_hexDigits, fun heq ↦ absurd heq hzero, head_hexDigits_ne⟩
    · rw [hexDigits_of_ne_zero hzero, List.length_reverse, List.length_map]
      exact List.length_pos_of_ne_nil (Nat.digits_ne_nil_iff_ne_zero.mpr hzero)
    · rw [hexDigits_of_ne_zero hzero, List.length_reverse, List.length_map]
      apply (Nat.digits_length_le_iff (by norm_num) value).mpr
      calc value
        _ < 2 ^ 64 := h
        _ = 16 ^ 16 := by norm_num
    · intro digit hdigit
      rw [hexDigits_of_ne_zero hzero, List.mem_reverse] at hdigit
      obtain ⟨nibble, hnibble, rfl⟩ := List.mem_map.mp hdigit
      exact isHexDigit_hexDigit (Nat.digits_lt_base (by norm_num) hnibble)

theorem run_writeAll : run execSerial (writeAll bytes) lock = some ((), lock) := by
  induction bytes with
  | nil => rfl
  | cons byte bytes ih =>
    rw [writeAll_cons, run_perform_bind]
    exact ih

theorem emitted_writeAll : emitted (writeAll bytes) lock = bytes := by
  induction bytes with
  | nil => rfl
  | cons byte bytes ih =>
    calc emitted (writeAll (byte :: bytes)) lock
      _ = byte :: emitted (writeAll bytes) lock := rfl
      _ = byte :: bytes := by rw [ih]

theorem emitted_kputhex (h : value < 2 ^ 64) :
    emitted (kputhex value) lock = 48 :: 120 :: hexDigits value := by
  rw [kputhex_eq, emitted_writeAll, hexBytes, Nat.mod_eq_of_lt h]
  rfl

/-- `kputhex` ends after it has written `0x` and the numeral of its argument, and it writes no other
value in the same way. -/
theorem kputhex_decodes (value : UInt64) (lock : ℕ) :
    run execSerial (kputhex value.toNat) lock = some ((), lock) ∧
      (∃ digits, emitted (kputhex value.toNat) lock = 48 :: 120 :: digits ∧
        IsNumeral digits value.toNat) ∧
      ∀ other : UInt64,
        emitted (kputhex other.toNat) lock = emitted (kputhex value.toNat) lock →
          other = value := by
  have hvalue : value.toNat < 2 ^ 64 := value.toNat_lt
  refine ⟨?_, ⟨_, emitted_kputhex hvalue, isNumeral_hexDigits hvalue⟩, fun other hsame ↦ ?_⟩
  · rw [kputhex_eq, run_writeAll]
  · rw [emitted_kputhex hvalue, emitted_kputhex other.toNat_lt] at hsame
    injection hsame with _ htail
    injection htail with _ hdigits
    apply UInt64.toNat_inj.mp
    calc other.toNat
      _ = hexNumber (hexDigits other.toNat) := hexNumber_hexDigits.symm
      _ = hexNumber (hexDigits value.toNat) := by rw [hdigits]
      _ = value.toNat := hexNumber_hexDigits

end Numerals

end SideHOS.Serial
