import Mathlib.Data.List.GetD
import Mathlib.Data.Nat.Digits.Lemmas
import SideHOS.Kernel.Serial

/-!
# The bytes that the printing functions write

`kputs` writes the bytes of a literal and `kputhex` the hexadecimal digits of its argument, most
significant first.  Both are a list of bytes written one after another (`writeAll`), whatever the
other processors do meanwhile.
-/

namespace SideHOS.Serial

open Kernel Machine.Word64 Sharing Sharing.Program

/-- Pass the bytes to `serial_write`, one after another. -/
def writeAll : List UInt8 → SerialCode Unit
  | [] => pure ()
  | byte :: bytes => do
    let _ ← perform (.serialWrite byte)
    writeAll bytes

@[simp]
theorem writeAll_nil : writeAll [] = pure () := rfl

theorem writeAll_cons (byte : UInt8) (bytes : List UInt8) :
    writeAll (byte :: bytes) = (perform (.serialWrite byte) >>= fun _ ↦ writeAll bytes) := rfl

/-- What comes after the bytes. -/
theorem writeAll_cons_bind {α : Type} (byte : UInt8) (bytes : List UInt8)
    (next : Unit → SerialCode α) :
    (writeAll (byte :: bytes) >>= next) =
      .access (.serialWrite byte) fun _ ↦ writeAll bytes >>= next := rfl

theorem writeAll_append_bind {α : Type} (front back : List UInt8) (next : Unit → SerialCode α) :
    (writeAll (front ++ back) >>= next) = (writeAll front >>= fun _ ↦ writeAll back >>= next) := by
  induction front with
  | nil => rfl
  | cons byte front ih =>
    rw [List.cons_append, writeAll_cons_bind, writeAll_cons_bind, ih]

/-- From an index inside a short string without a `NUL`, the loop writes what is left of it. -/
theorem serialWriteStrFrom_eq (bytes : List UInt8) (hlength : bytes.length < 128)
    (hbytes : (0 : UInt8) ∉ bytes) (fuel index : ℕ) (hindex : index ≤ bytes.length)
    (hfuel : bytes.length < index + fuel) :
    serialWriteStrFrom (fun i ↦ bytes.getD i.toNat 0) fuel index =
      writeAll (bytes.drop index) := by
  induction fuel generalizing index with
  | zero => omega
  | succ fuel ih =>
    have hread : int8 index = index := int8_of_lt (by omega)
    rcases Nat.lt_or_eq_of_le hindex with hlt | heq
    · have hbyte : bytes.getD index 0 = bytes[index] := List.getD_eq_getElem bytes 0 hlt
      have hne : bytes[index] ≠ 0 := fun hzero ↦ hbytes (hzero ▸ List.getElem_mem hlt)
      rw [serialWriteStrFrom, hread, Int.toNat_natCast, hbyte, if_neg hne,
        List.drop_eq_getElem_cons hlt, writeAll_cons, Nat.mod_eq_of_lt (by omega : index + 1 < 256),
        ih (index + 1) hlt (by omega)]
    · rw [serialWriteStrFrom, hread, Int.toNat_natCast, if_pos]
      · rw [heq, List.drop_length, writeAll_nil]
      · rw [heq, List.getD_eq_default bytes 0 le_rfl]

/-- `kputs` writes a short literal. -/
theorem kputs_literal (text : String) (hlength : (textBytes text).length < 128)
    (hbytes : (0 : UInt8) ∉ textBytes text) : kputs (literal text) = writeAll (textBytes text) :=
  serialWriteStrFrom_eq (textBytes text) hlength hbytes 256 0 (Nat.zero_le _) (by omega)

/-- The hexadecimal digits of a number, most significant first; a zero for zero. -/
def hexDigits (value : ℕ) : List UInt8 :=
  if value = 0 then [hexDigit 0] else ((Nat.digits 16 value).map hexDigit).reverse

/-- What `kputhex` writes. -/
def hexBytes (value : ℕ) : List UInt8 := [48, 120] ++ hexDigits (value % 2 ^ 64)

/-- The lowest nibbles of a number, most significant first. -/
def nibblesFrom (value : ℕ) : ℕ → List UInt8
  | 0 => []
  | nibbles + 1 => hexDigit (value / 16 ^ nibbles % 16) :: nibblesFrom value nibbles

theorem nibble_mod {value nibbles count : ℕ} (h : nibbles < count) :
    value % 16 ^ count / 16 ^ nibbles % 16 = value / 16 ^ nibbles % 16 := by
  obtain ⟨more, rfl⟩ : ∃ more, count = nibbles + (more + 1) := ⟨count - nibbles - 1, by omega⟩
  rw [pow_add, Nat.mod_mul_right_div_self, Nat.mod_mod_of_dvd]
  exact dvd_pow_self 16 (Nat.succ_ne_zero more)

/-- Once a digit is out, every further nibble is written. -/
theorem kputhexFrom_started (value nibbles : ℕ) :
    kputhexFrom value nibbles true = writeAll (nibblesFrom value nibbles) := by
  induction nibbles with
  | zero => rfl
  | succ nibbles ih =>
    rw [kputhexFrom, ih, nibblesFrom, writeAll_cons, pow_mul]
    rfl

/-- The digits of a number are its nibbles. -/
theorem nibblesFrom_eq (value nibbles : ℕ) (h : (Nat.digits 16 value).length = nibbles) :
    nibblesFrom value nibbles = ((Nat.digits 16 value).map hexDigit).reverse := by
  have hdigits : ∀ count ≤ nibbles, nibblesFrom value count =
      (((Nat.digits 16 value).take count).map hexDigit).reverse := by
    intro count hcount
    induction count with
    | zero => rfl
    | succ count ih =>
      have hlt : count < (Nat.digits 16 value).length := by omega
      have hdigit : (Nat.digits 16 value)[count] = value / 16 ^ count % 16 := by
        rw [← Nat.getD_digits value count (le_refl _ |>.trans (by norm_num : 2 ≤ 16)),
          List.getD_eq_getElem _ 0 hlt]
      rw [nibblesFrom, ih (by omega), List.take_succ_eq_append_getElem hlt, List.map_append,
        List.reverse_append, hdigit]
      rfl
  rw [hdigits nibbles le_rfl, ← h, List.take_length]

/-- Before the first digit, leading zeros are skipped. -/
theorem kputhexFrom_skip (value nibbles : ℕ) (h : value < 16 ^ nibbles) (hpos : 0 < nibbles) :
    kputhexFrom value nibbles false = writeAll (hexDigits value) := by
  induction nibbles with
  | zero => exact absurd hpos (lt_irrefl 0)
  | succ nibbles ih =>
    have hnibble : value / 2 ^ (4 * nibbles) % 16 = value / 16 ^ nibbles := by
      rw [pow_mul]
      exact Nat.mod_eq_of_lt (Nat.div_lt_of_lt_mul (by rwa [pow_succ] at h))
    by_cases hskip : value / 16 ^ nibbles = 0 ∧ 4 * nibbles ≠ 0
    · have hlt : value < 16 ^ nibbles :=
        (Nat.div_eq_zero_iff_lt (Nat.pow_pos (by norm_num))).mp hskip.1
      rw [kputhexFrom, hnibble, if_pos (by simpa using hskip)]
      exact ih hlt (by omega)
    · rw [kputhexFrom, hnibble, if_neg (by simpa using hskip), kputhexFrom_started]
      by_cases hzero : value = 0
      · have hlast : nibbles = 0 := by
          by_contra hne
          exact hskip ⟨by rw [hzero, Nat.zero_div], by omega⟩
        rw [hzero, hlast]
        rfl
      · have hlow : 16 ^ nibbles ≤ value := by
          rcases Nat.eq_zero_or_pos nibbles with rfl | hnibbles
          · rw [pow_zero]
            exact Nat.pos_of_ne_zero hzero
          · by_contra hlt
            exact hskip ⟨Nat.div_eq_of_lt (not_le.mp hlt), by omega⟩
        have hlength : (Nat.digits 16 value).length = nibbles + 1 := by
          apply le_antisymm
          · exact (Nat.digits_length_le_iff (by norm_num) value).mpr h
          · exact (Nat.lt_digits_length_iff (by norm_num) value).mpr hlow
        have hfirst : value / 16 ^ nibbles = value / 16 ^ nibbles % 16 := by
          rw [← hnibble, Nat.mod_mod]
        rw [hexDigits, if_neg hzero, ← nibblesFrom_eq value (nibbles + 1) hlength, nibblesFrom,
          ← hfirst, writeAll_cons]

theorem kputhexFrom_mod (value nibbles count : ℕ) (h : nibbles ≤ count) (started : Bool) :
    kputhexFrom (value % 16 ^ count) nibbles started = kputhexFrom value nibbles started := by
  induction nibbles generalizing started with
  | zero => rfl
  | succ nibbles ih =>
    have hnibble : value % 16 ^ count / 2 ^ (4 * nibbles) % 16 =
        value / 2 ^ (4 * nibbles) % 16 := by
      rw [pow_mul]
      exact nibble_mod h
    rw [kputhexFrom, kputhexFrom, hnibble, ih (by omega), ih (by omega)]

/-- `kputhex` writes the digits of its argument behind `0x`. -/
theorem kputhex_eq (value : ℕ) : kputhex value = writeAll (hexBytes value) := by
  have hdigits : kputhexFrom value 16 false = writeAll (hexDigits (value % 2 ^ 64)) := by
    rw [← kputhexFrom_mod value 16 16 le_rfl false, ← kputhexFrom_skip _ 16 _ (by norm_num)]
    · norm_num
    · exact Nat.mod_lt _ (by norm_num)
  rw [kputhex, hdigits]
  rfl

end SideHOS.Serial
