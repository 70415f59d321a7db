import Mathlib.Tactic

/-!
# Byte-addressed memory with little-endian words

A memory assigns a byte to every address.  Words of `count` bytes are read and written in
little-endian order at any alignment.  The frame lemmas say which bytes a read depends on and
which bytes a write leaves alone; together with `load64_store64_same` they are the only facts
about memory that programs are verified with.
-/

namespace SideHOS.Machine.ByteMemory

abbrev Memory := ℕ → UInt8

/-- The little-endian value of `count` bytes starting at `address`. -/
def loadBytes (memory : Memory) (address : ℕ) : ℕ → ℕ
  | 0 => 0
  | count + 1 => (memory address).toNat + 256 * loadBytes memory (address + 1) count

/-- Write the low `count` bytes of `value` at `address`, least significant byte first. -/
def storeBytes (memory : Memory) (address count value : ℕ) : Memory :=
  fun x ↦ if address ≤ x ∧ x < address + count then UInt8.ofNat (value / 256 ^ (x - address))
    else memory x

def load64 (memory : Memory) (address : ℕ) : ℕ := loadBytes memory address 8

def store64 (memory : Memory) (address value : ℕ) : Memory := storeBytes memory address 8 value

def store8 (memory : Memory) (address : ℕ) (value : UInt8) : Memory :=
  Function.update memory address value

/-- `count` bytes starting at `address` set to `value`. -/
def fill (memory : Memory) (address count : ℕ) (value : UInt8) : Memory :=
  fun x ↦ if address ≤ x ∧ x < address + count then value else memory x

theorem loadBytes_lt (memory : Memory) (address count : ℕ) :
    loadBytes memory address count < 256 ^ count := by
  induction count generalizing address with
  | zero => simp [loadBytes]
  | succ count ih =>
    have hbyte := (memory address).toNat_lt
    have htail := ih (address + 1)
    rw [loadBytes, pow_succ]
    omega

theorem load64_lt (memory : Memory) (address : ℕ) : load64 memory address < 2 ^ 64 := by
  have h := loadBytes_lt memory address 8
  norm_num at h ⊢
  exact h

/-- A read depends on the bytes it covers only. -/
theorem loadBytes_congr {first second : Memory} {address count : ℕ}
    (h : ∀ x, address ≤ x → x < address + count → first x = second x) :
    loadBytes first address count = loadBytes second address count := by
  induction count generalizing address with
  | zero => rfl
  | succ count ih =>
    rw [loadBytes, loadBytes, h address le_rfl (by omega),
      ih fun x hlow hhigh ↦ h x (by omega) (by omega)]

theorem load64_congr {first second : Memory} {address : ℕ}
    (h : ∀ x, address ≤ x → x < address + 8 → first x = second x) :
    load64 first address = load64 second address := loadBytes_congr h

theorem testBit_loadBytes {memory : Memory} {address count i j : ℕ} (hi : i < count)
    (hj : j < 8) :
    (loadBytes memory address count).testBit (8 * i + j) =
      (memory (address + i)).toNat.testBit j := by
  induction count generalizing address i with
  | zero => exact absurd hi (Nat.not_lt_zero i)
  | succ count ih =>
    rw [loadBytes, add_comm, show 256 = 2 ^ 8 by rfl,
      Nat.testBit_two_pow_mul_add _ (memory address).toNat_lt]
    cases i with
    | zero => rw [if_pos (by omega), mul_zero, zero_add, add_zero]
    | succ i =>
      rw [if_neg (by omega), show 8 * (i + 1) + j - 8 = 8 * i + j by omega,
        ih (Nat.lt_of_succ_lt_succ hi), add_assoc, add_comm 1]

/-- The low bit of each byte of a word. -/
theorem testBit_load64 (memory : Memory) (address : ℕ) {i : ℕ} (hi : i < 8) :
    (load64 memory address).testBit (8 * i) = (memory (address + i)).toNat.testBit 0 :=
  testBit_loadBytes hi (Nat.succ_pos 7)

theorem storeBytes_of_outside {memory : Memory} {address count value x : ℕ}
    (h : x < address ∨ address + count ≤ x) :
    storeBytes memory address count value x = memory x := by
  unfold storeBytes
  rw [if_neg (by omega)]

theorem store64_of_outside {memory : Memory} {address value x : ℕ}
    (h : x < address ∨ address + 8 ≤ x) : store64 memory address value x = memory x :=
  storeBytes_of_outside h

/-- Writes to different words commute. -/
theorem store64_comm {memory : Memory} {first second value other : ℕ}
    (h : first + 8 ≤ second ∨ second + 8 ≤ first) :
    store64 (store64 memory first value) second other =
      store64 (store64 memory second other) first value := by
  funext x
  unfold store64 storeBytes
  split_ifs with hsecond hfirst
  · omega
  · rfl
  · rfl
  · rfl

theorem store8_of_ne {memory : Memory} {address x : ℕ} {value : UInt8} (h : x ≠ address) :
    store8 memory address value x = memory x := Function.update_of_ne h _ _

theorem fill_of_inside {memory : Memory} {address count x : ℕ} {value : UInt8}
    (hlow : address ≤ x) (hhigh : x < address + count) :
    fill memory address count value x = value := if_pos ⟨hlow, hhigh⟩

theorem fill_of_outside {memory : Memory} {address count x : ℕ} {value : UInt8}
    (h : x < address ∨ address + count ≤ x) : fill memory address count value x = memory x := by
  unfold fill
  rw [if_neg (by omega)]

/-- Storing one byte and then filling the rest is one longer fill. -/
theorem fill_store8 (memory : Memory) (address count : ℕ) (value : UInt8) :
    fill (store8 memory address value) (address + 1) count value =
      fill memory address (count + 1) value := by
  funext x
  unfold fill store8
  by_cases hx : x = address
  · subst hx
    rw [if_neg (by omega), if_pos (by omega), Function.update_self]
  · rw [Function.update_of_ne hx]
    have hiff : (address + 1 ≤ x ∧ x < address + 1 + count) ↔
        (address ≤ x ∧ x < address + (count + 1)) := by omega
    simp only [hiff]

@[simp]
theorem fill_zero (memory : Memory) (address : ℕ) (value : UInt8) :
    fill memory address 0 value = memory := by
  funext x
  exact fill_of_outside (by omega)

/-- A write of `count` bytes is a write of its first byte followed by the rest. -/
theorem storeBytes_succ (memory : Memory) (address count value : ℕ) :
    storeBytes memory address (count + 1) value =
      storeBytes (store8 memory address (UInt8.ofNat value)) (address + 1) count (value / 256) := by
  funext x
  by_cases hx : x = address
  · subst hx
    simp [storeBytes, store8]
  · by_cases hin : address ≤ x ∧ x < address + (count + 1)
    · obtain ⟨offset, rfl⟩ : ∃ offset, x = address + 1 + offset := ⟨x - (address + 1), by omega⟩
      unfold storeBytes
      rw [if_pos hin, if_pos (by omega), Nat.div_div_eq_div_mul,
        show address + 1 + offset - address = offset + 1 by omega,
        show address + 1 + offset - (address + 1) = offset by omega, pow_succ, mul_comm]
    · rw [storeBytes_of_outside (by omega), storeBytes_of_outside (by omega), store8_of_ne hx]

theorem loadBytes_storeBytes_same (memory : Memory) (address count value : ℕ) :
    loadBytes (storeBytes memory address count value) address count = value % 256 ^ count := by
  induction count generalizing memory address value with
  | zero => simp [loadBytes, Nat.mod_one]
  | succ count ih =>
    have hhead : (storeBytes memory address (count + 1) value address).toNat = value % 256 := by
      simp [storeBytes]
    rw [loadBytes, hhead, storeBytes_succ, ih, pow_succ, mul_comm (256 ^ count) 256, Nat.mod_mul]

/-- Writing back what was read changes nothing. -/
theorem storeBytes_loadBytes (memory : Memory) (address count : ℕ) :
    storeBytes memory address count (loadBytes memory address count) = memory := by
  induction count generalizing address with
  | zero =>
    funext x
    exact storeBytes_of_outside (by omega)
  | succ count ih =>
    have hlow : (memory address).toNat < 256 := (memory address).toNat_lt
    have hbyte : UInt8.ofNat ((memory address).toNat +
        256 * loadBytes memory (address + 1) count) = memory address := by
      apply UInt8.toNat_inj.mp
      rw [UInt8.toNat_ofNat']
      omega
    have hrest : ((memory address).toNat + 256 * loadBytes memory (address + 1) count) / 256 =
        loadBytes memory (address + 1) count := by omega
    rw [storeBytes_succ, loadBytes, hbyte, hrest, store8, Function.update_eq_self, ih]

theorem store64_load64 (memory : Memory) (address : ℕ) :
    store64 memory address (load64 memory address) = memory := storeBytes_loadBytes memory address 8

/-- Equal words consist of equal bytes. -/
theorem eq_of_load64_eq {first second : Memory} {address x : ℕ}
    (h : load64 first address = load64 second address) (hlow : address ≤ x)
    (hhigh : x < address + 8) : first x = second x := by
  calc first x
    _ = store64 first address (load64 first address) x := by rw [store64_load64]
    _ = store64 second address (load64 second address) x := by
      rw [h]
      simp only [store64, storeBytes, if_pos (And.intro hlow hhigh)]
    _ = second x := by rw [store64_load64]

theorem load64_store64_same {memory : Memory} {address value : ℕ} (h : value < 2 ^ 64) :
    load64 (store64 memory address value) address = value := by
  have hload := loadBytes_storeBytes_same memory address 8 value
  rw [Nat.mod_eq_of_lt (by norm_num at h ⊢; exact h)] at hload
  exact hload

theorem load64_store64_of_apart {memory : Memory} {address value other : ℕ}
    (h : other + 8 ≤ address ∨ address + 8 ≤ other) :
    load64 (store64 memory address value) other = load64 memory other :=
  load64_congr fun x _ _ ↦ store64_of_outside (by omega)

theorem loadBytes_zero {memory : Memory} {address count : ℕ}
    (h : ∀ x, address ≤ x → x < address + count → memory x = 0) :
    loadBytes memory address count = 0 := by
  induction count generalizing address with
  | zero => rfl
  | succ count ih =>
    rw [loadBytes, h address le_rfl (by omega), ih fun x hlow hhigh ↦ h x (by omega) (by omega)]
    rfl

end SideHOS.Machine.ByteMemory
