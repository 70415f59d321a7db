import SideHOS.Kernel.Strings
import SideHOS.Sharing.Trace

/-!
# Writing a whole string

`serial_write_str` stops at the first zero among the bytes that its index visits.  As long as the
string has fewer than 128 bytes these are the bytes of the string in order.  The 129th byte it
visits is the one 128 bytes before the string, and a loop that ends has written at most 255 bytes,
so that no longer string is written as it should be.
-/

namespace SideHOS.Serial.Strings

open Kernel.Strings Machine.Word64 Machine.ByteMemory Sharing Sharing.Program

/-- A string in memory, with its `NUL`. -/
structure CString (memory : Memory) (s : ℕ) (bytes : List UInt8) : Prop where
  within : s + bytes.length < 2 ^ 64
  byte_eq : ∀ i (hi : i < bytes.length), memory (s + i) = bytes[i]
  ne_zero : (0 : UInt8) ∉ bytes
  terminated : memory (s + bytes.length) = 0

/-- The bytes passed to `serial_write`. -/
def written (operations : List StringAccess) : List UInt8 :=
  operations.filterMap fun
    | .load _ => none
    | .serialWrite byte => some byte

/-- The program ends, it reads no byte outside of the string and its `NUL`, and it passes the bytes
of the string to `serial_write`, in order. -/
def WritesWhole (program : ℕ → StringCode Unit) (memory : Memory) (s : ℕ) (bytes : List UInt8) :
    Prop :=
  ∃ fuel, run execString (program fuel) memory = some ((), memory) ∧
    (∀ address, .load address ∈ accesses execString (program fuel) memory →
      s ≤ address ∧ address ≤ s + bytes.length) ∧
    written (accesses execString (program fuel) memory) = bytes

def visited (s index turns : ℕ) : ℕ := element s (int8 ((index + turns) % 256))

/-- The loop meets its first zero after `count` turns. -/
structure Stops (memory : Memory) (s index count : ℕ) : Prop where
  zero : memory (visited s index count) = 0
  ne_zero : ∀ turns < count, memory (visited s index turns) ≠ 0

def loopAccesses (memory : Memory) (s : ℕ) : ℕ → ℕ → List StringAccess
  | 0, index => [.load (element s (int8 index))]
  | count + 1, index =>
    .load (element s (int8 index)) :: .load (element s (int8 index)) ::
      .serialWrite (memory (element s (int8 index))) ::
        loopAccesses memory s count ((index + 1) % 256)

section Strings

variable {memory : Memory} {s index count fuel turns address : ℕ} {bytes : List UInt8}

theorem visited_zero (hindex : index < 256) : visited s index 0 = element s (int8 index) := by
  rw [visited, add_zero, Nat.mod_eq_of_lt hindex]

theorem visited_succ : visited s ((index + 1) % 256) turns = visited s index (turns + 1) := by
  have hindex : ((index + 1) % 256 + turns) % 256 = (index + (turns + 1)) % 256 := by omega
  rw [visited, visited, hindex]

theorem Stops.succ (h : Stops memory s index (count + 1)) :
    Stops memory s ((index + 1) % 256) count where
  zero := by rw [visited_succ, h.zero]
  ne_zero turns hturns := by
    rw [visited_succ]
    exact h.ne_zero _ (Nat.succ_lt_succ hturns)

theorem Stops.of_succ (hindex : index < 256) (hne : memory (element s (int8 index)) ≠ 0)
    (h : Stops memory s ((index + 1) % 256) count) : Stops memory s index (count + 1) where
  zero := by rw [← visited_succ, h.zero]
  ne_zero turns hturns := by
    cases turns with
    | zero => rwa [visited_zero hindex]
    | succ turns =>
      rw [← visited_succ]
      exact h.ne_zero turns (Nat.lt_of_succ_lt_succ hturns)

/-- The visited bytes repeat after 256 turns. -/
theorem Stops.lt (h : Stops memory s index count) : count < 256 := by
  by_contra hle
  refine h.ne_zero (count - 256) (by omega) ?_
  have hindex : (index + (count - 256)) % 256 = (index + count) % 256 := by omega
  rw [visited, hindex]
  exact h.zero

/-- The test of the loop. -/
theorem toNat_eq_zero_iff (byte : UInt8) : byte.toNat = 0 ↔ byte = 0 := by
  rw [← UInt8.toNat_inj]
  rfl

/-- A turn of the loop. -/
theorem run_serialWriteStrFrom_succ :
    run execString (serialWriteStrFrom s (fuel + 1) index) memory =
      if memory (element s (int8 index)) = 0 then some ((), memory)
      else run execString (serialWriteStrFrom s fuel ((index + 1) % 256)) memory := by
  rw [serialWriteStrFrom, run_perform_bind, run_ite]
  simp only [execString, toNat_eq_zero_iff]
  rfl

theorem accesses_serialWriteStrFrom_succ :
    accesses execString (serialWriteStrFrom s (fuel + 1) index) memory =
      .load (element s (int8 index)) :: if memory (element s (int8 index)) = 0 then []
      else .load (element s (int8 index)) :: .serialWrite (memory (element s (int8 index))) ::
        accesses execString (serialWriteStrFrom s fuel ((index + 1) % 256)) memory := by
  rw [serialWriteStrFrom, accesses_perform_bind, accesses_ite]
  simp only [execString, toNat_eq_zero_iff, accesses_perform_bind, accesses_pure,
    Nat.toUInt8_eq, UInt8.ofNat_toNat]

/-- A loop that meets a zero ends there. -/
theorem run_of_stops (hindex : index < 256) (hfuel : count < fuel)
    (h : Stops memory s index count) :
    run execString (serialWriteStrFrom s fuel index) memory = some ((), memory) ∧
      accesses execString (serialWriteStrFrom s fuel index) memory =
        loopAccesses memory s count index := by
  obtain ⟨fuel, rfl⟩ : ∃ less, fuel = less + 1 := ⟨fuel - 1, by omega⟩
  rw [run_serialWriteStrFrom_succ, accesses_serialWriteStrFrom_succ]
  induction count generalizing index fuel with
  | zero =>
    have hzero := h.zero
    rw [visited_zero hindex] at hzero
    rw [if_pos hzero, if_pos hzero, loopAccesses]
    exact ⟨rfl, rfl⟩
  | succ count ih =>
    have hne := h.ne_zero 0 (Nat.succ_pos count)
    rw [visited_zero hindex] at hne
    obtain ⟨fuel, rfl⟩ : ∃ less, fuel = less + 1 := ⟨fuel - 1, by omega⟩
    obtain ⟨hrun, haccesses⟩ := ih (Nat.mod_lt _ (by norm_num)) h.succ fuel (by omega)
    rw [if_neg hne, if_neg hne, run_serialWriteStrFrom_succ, accesses_serialWriteStrFrom_succ, hrun,
      haccesses, loopAccesses]
    exact ⟨rfl, rfl⟩

/-- A loop that ends has met a zero. -/
theorem exists_stops {result : Unit × Memory} (hindex : index < 256)
    (h : run execString (serialWriteStrFrom s fuel index) memory = some result) :
    ∃ count < fuel, Stops memory s index count := by
  induction fuel generalizing index with
  | zero => cases h
  | succ fuel ih =>
    rw [run_serialWriteStrFrom_succ] at h
    split at h
    case isTrue hzero =>
      refine ⟨0, Nat.succ_pos fuel, ?_, nofun⟩
      rwa [visited_zero hindex]
    case isFalse hne =>
      obtain ⟨count, hcount, hstops⟩ := ih (Nat.mod_lt _ (by norm_num)) h
      exact ⟨count + 1, Nat.succ_lt_succ hcount, hstops.of_succ hindex hne⟩

/-- The loop reads the visited bytes up to the one it stops at. -/
theorem mem_loopAccesses (hindex : index < 256) :
    .load address ∈ loopAccesses memory s count index ↔
      ∃ turns ≤ count, address = visited s index turns := by
  induction count generalizing index with
  | zero => simp [loopAccesses, visited_zero hindex]
  | succ count ih =>
    have hnext : (index + 1) % 256 < 256 := Nat.mod_lt _ (by norm_num)
    simp only [loopAccesses, List.mem_cons, StringAccess.load.injEq, reduceCtorEq, false_or,
      ih hnext, visited_succ]
    constructor
    · rintro (rfl | rfl | ⟨turns, hturns, rfl⟩)
      · exact ⟨0, Nat.zero_le _, (visited_zero hindex).symm⟩
      · exact ⟨0, Nat.zero_le _, (visited_zero hindex).symm⟩
      · exact ⟨turns + 1, Nat.succ_le_succ hturns, rfl⟩
    · rintro ⟨turns, hturns, rfl⟩
      cases turns with
      | zero => exact Or.inl (visited_zero hindex)
      | succ turns => exact Or.inr (Or.inr ⟨turns, Nat.le_of_succ_le_succ hturns, rfl⟩)

/-- The loop writes the visited bytes before the one it stops at. -/
theorem written_loopAccesses (hindex : index < 256) :
    written (loopAccesses memory s count index) =
      (List.range count).map fun turns ↦ memory (visited s index turns) := by
  induction count generalizing index with
  | zero => rfl
  | succ count ih =>
    have hnext := @ih ((index + 1) % 256) (Nat.mod_lt _ (by norm_num))
    simp only [visited_succ] at hnext
    rw [List.range_succ_eq_map, List.map_cons, List.map_map, visited_zero hindex]
    change memory (element s (int8 index)) :: written _ = _
    rw [hnext]
    rfl

/-- While the index has not wrapped, the loop visits the string. -/
theorem visited_of_lt (hturns : turns < 128) (hbound : s + turns < 2 ^ 64) :
    visited s 0 turns = s + turns := by
  have hmod : (0 + turns) % 256 = turns := by omega
  rw [visited, hmod, int8_of_lt hturns, element]
  omega

/-- Then it visits the byte 128 below the string. -/
theorem visited_wrapped (hbound : s < 2 ^ 64) :
    visited s 0 128 = if s < 128 then s + 2 ^ 64 - 128 else s - 128 := by
  have hindex : int8 ((0 + 128) % 256) = -128 := rfl
  rw [visited, hindex, element]
  split_ifs <;> omega

/-- The loop stops at the `NUL` of a short string. -/
theorem CString.stops (h : CString memory s bytes) (hlength : bytes.length < 128) :
    Stops memory s 0 bytes.length where
  zero := by rw [visited_of_lt hlength h.within, h.terminated]
  ne_zero turns hturns := by
    have hbound := h.within
    rw [visited_of_lt (by omega) (by omega), h.byte_eq turns hturns]
    exact fun hzero ↦ h.ne_zero (hzero ▸ List.getElem_mem hturns)

/-- A short string is written whole. -/
theorem CString.writesWhole (h : CString memory s bytes) (hlength : bytes.length < 128) :
    WritesWhole (serialWriteStr s) memory s bytes := by
  have hbound := h.within
  obtain ⟨hrun, haccesses⟩ :=
    run_of_stops (by norm_num) (Nat.lt_succ_self bytes.length) (h.stops hlength)
  refine ⟨bytes.length + 1, hrun, fun address haddress ↦ ?_, ?_⟩
  · rw [serialWriteStr, haccesses, mem_loopAccesses (by norm_num)] at haddress
    obtain ⟨turns, hturns, rfl⟩ := haddress
    rw [visited_of_lt (by omega) (by omega)]
    omega
  · rw [serialWriteStr, haccesses, written_loopAccesses (by norm_num)]
    apply List.ext_getElem (by simp)
    intro turns hcount hturns
    rw [List.getElem_map, List.getElem_range, visited_of_lt (by omega) (by omega),
      h.byte_eq turns hturns]

/-- Only a short string is written whole. -/
theorem CString.length_lt (h : CString memory s bytes)
    (hwhole : WritesWhole (serialWriteStr s) memory s bytes) : bytes.length < 128 := by
  have hbound := h.within
  obtain ⟨fuel, hrun, hloads, hwritten⟩ := hwhole
  obtain ⟨count, hfuel, hstops⟩ := exists_stops (by norm_num) hrun
  obtain ⟨-, haccesses⟩ := run_of_stops (by norm_num) hfuel hstops
  rw [serialWriteStr, haccesses] at hloads hwritten
  have hcount : count = bytes.length := by
    rw [← hwritten, written_loopAccesses (by norm_num), List.length_map, List.length_range]
  have hlt := hstops.lt
  by_contra hlong
  have hread := hloads (visited s 0 128)
    ((mem_loopAccesses (by norm_num)).mpr ⟨128, by omega, rfl⟩)
  rw [visited_wrapped (by omega)] at hread
  split_ifs at hread <;> omega

/-- `serial_write_str`, and so `kputs`, writes a string whole exactly if it has fewer than 128
bytes. -/
theorem strings_whole_iff (h : CString memory s bytes) :
    (WritesWhole (serialWriteStr s) memory s bytes ↔ bytes.length < 128) ∧
      (WritesWhole (kputs s) memory s bytes ↔ bytes.length < 128) :=
  ⟨⟨h.length_lt, h.writesWhole⟩, ⟨h.length_lt, h.writesWhole⟩⟩

/-- A string of two bytes at address 4096. -/
theorem strings_whole_short :
    WritesWhole (kputs 4096) (Function.update (fun _ ↦ 79) 4098 0) 4096 [79, 79] := by
  refine (strings_whole_iff ⟨by norm_num, fun i hi ↦ ?_, by decide, rfl⟩).2.mpr (by norm_num)
  match i, hi with
  | 0, _ => rfl
  | 1, _ => rfl

/-- A string of 128 bytes at address 4096, between zeros. -/
theorem string_not_whole : ∃ memory : Memory,
    CString memory 4096 (List.replicate 128 97) ∧
      ¬ WritesWhole (serialWriteStr 4096) memory 4096 (List.replicate 128 97) := by
  have hstring : CString (fill (fun _ ↦ 0) 4096 128 97) 4096 (List.replicate 128 97) := by
    refine ⟨by norm_num, fun i hi ↦ ?_, ?_, ?_⟩
    · rw [List.length_replicate] at hi
      rw [List.getElem_replicate, fill_of_inside (by omega) (by omega)]
    · simp
    · rw [List.length_replicate, fill_of_outside (by omega)]
  refine ⟨_, hstring, fun hwhole ↦ ?_⟩
  have hlength := hstring.length_lt hwhole
  norm_num at hlength

end Strings

end SideHOS.Serial.Strings
