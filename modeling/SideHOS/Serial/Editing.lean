import SideHOS.Serial.Input

/-!
# Editing a command line

As long as fewer than 255 characters are pending, `serial_read_str` and the editor agree up to one
erasing byte at the front of the buffer.  The byte is put there when it arrives on an empty line,
since the test for an erasing byte falls through to the store of a character, and the next erasing
byte that arrives on an empty line takes it away.
-/

namespace SideHOS.Serial.Input

open Kernel.Input Machine.LineEditor Machine.Word64 Machine.ByteMemory Sharing Sharing.Program

/-- `serial_read_str` ends, and leaves the edited line with its `NUL` and without an erasing
byte. -/
def LeavesEdited (buffer : ℕ) (memory : Memory) (keys : List UInt8) (stop : UInt8)
    (rest : List UInt8) : Prop :=
  ∃ fuel after,
    run execInput (serialReadStr buffer fuel) ⟨memory, keys ++ stop :: rest⟩ =
      some ((), ⟨after, rest⟩) ∧
    LineIn after buffer (edit Erases keys) ∧
    ∀ i < (edit Erases keys).length, ¬ Erases (after (add buffer i))

section Editing

variable {buffer fuel : ℕ} {memory after : Memory} {stop : UInt8} {line keys rest : List UInt8}

/-- A line without an erasing byte has none in the buffer. -/
theorem Holds.not_erases (h : Holds memory buffer line) (hline : ∀ byte ∈ line, ¬ Erases byte) :
    ∀ i < line.length, ¬ Erases (memory (add buffer i)) := by
  intro i hi
  rw [h i hi]
  exact hline _ (List.getElem_mem hi)

/-- The first byte of the buffer is no erasing byte, also if the line is empty. -/
theorem LineIn.first_not_erases (h : LineIn memory buffer line)
    (hline : ∀ byte ∈ line, ¬ Erases byte) : ¬ Erases (memory (add buffer 0)) := by
  cases line with
  | nil =>
    have hzero : memory (add buffer 0) = 0 := h.terminated
    rw [hzero]
    decide
  | cons first line => exact h.holds.not_erases hline 0 (Nat.succ_pos line.length)

/-- The limit does not matter: the code has at most one character more than the editor. -/
theorem foldl_eq_keep
    (hpending : ∀ before, before <+: keys → (edit Erases before).length < maxLen) :
    keys.foldl (keepWithin Erases maxLen) [] = keys.foldl (keep Erases) [] := by
  apply foldl_keepWithin
  intro before hbefore
  have hedit := hpending before hbefore
  calc (before.foldl (keep Erases) []).length
    _ = (edit Erases before).length + idle Erases before % 2 := beside_edit.length_eq
    _ ≤ (edit Erases before).length + 1 := by omega
    _ ≤ maxLen := hedit

theorem leavesEdited_of_even (hkeys : ∀ key ∈ keys, ¬ Ends key) (hstop : Ends stop)
    (hpending : ∀ before, before <+: keys → (edit Erases before).length < maxLen)
    (heven : Even (idle Erases keys)) : LeavesEdited buffer memory keys stop rest := by
  obtain ⟨after, hrun, hline⟩ :=
    run_serialReadStr memory buffer rest hkeys hstop (Nat.lt_succ_self keys.length)
  have hedit : keys.foldl (keep Erases) [] = edit Erases keys := by
    have hbeside : Beside Erases (edit Erases keys) _ (idle Erases keys) := beside_edit
    rwa [Beside, if_pos heven] at hbeside
  rw [foldl_eq_keep hpending, hedit] at hline
  exact ⟨keys.length + 1, after, hrun, hline, hline.holds.not_erases not_mem_edit⟩

theorem even_of_leavesEdited (hkeys : ∀ key ∈ keys, ¬ Ends key) (hstop : Ends stop)
    (hpending : ∀ before, before <+: keys → (edit Erases before).length < maxLen)
    (hleaves : LeavesEdited buffer memory keys stop rest) : Even (idle Erases keys) := by
  by_contra hodd
  obtain ⟨fuel, after, hrun, hedited, -⟩ := hleaves
  obtain ⟨left, hleft, hline⟩ := run_serialReadStr memory buffer rest hkeys hstop
    (fuel_of_run_serialReadStr hkeys hrun)
  have hsame : left = after := by
    rw [hrun] at hleft
    injection hleft with hpair
    injection hpair with _ hstate
    injection hstate with hmemory
    exact hmemory.symm
  have hbeside : Beside Erases (edit Erases keys) _ (idle Erases keys) := beside_edit
  rw [Beside, if_neg hodd] at hbeside
  obtain ⟨front, hfront, hkeep⟩ := hbeside
  rw [foldl_eq_keep hpending, hkeep, hsame] at hline
  apply hedited.first_not_erases not_mem_edit
  rw [hline.holds 0 (Nat.succ_pos _)]
  exact hfront

/-- As long as fewer than 255 characters are pending, `serial_read_str` leaves the edited line
exactly if an even number of erasing bytes arrived with nothing to erase. -/
theorem editing_faithful_iff (hkeys : ∀ key ∈ keys, ¬ Ends key) (hstop : Ends stop)
    (hpending : ∀ before, before <+: keys → (edit Erases before).length < maxLen) :
    LeavesEdited buffer memory keys stop rest ↔ Even (idle Erases keys) :=
  ⟨even_of_leavesEdited hkeys hstop hpending, leavesEdited_of_even hkeys hstop hpending⟩

/-- Two erasing bytes on the empty line, and then two characters. -/
theorem editing_faithful_twice :
    LeavesEdited 4096 (fun _ ↦ 255) [8, 127, 111, 107] 10 [] := by
  have hpending : ∀ before ∈ [8, 127, 111, (107 : UInt8)].inits,
      (edit Erases before).length < maxLen := by decide
  refine (editing_faithful_iff (by simp) (by decide) fun before hbefore ↦ ?_).mpr (by decide)
  exact hpending before ((List.mem_inits before _).mpr hbefore)

/-- A backspace on the empty line, and then a character. -/
theorem editing_not_faithful : ¬ LeavesEdited 4096 (fun _ ↦ 255) [8, 97] 13 [] := by
  intro hleaves
  have hpending : ∀ before ∈ [8, (97 : UInt8)].inits, (edit Erases before).length < maxLen := by
    decide
  have heven := even_of_leavesEdited (by simp) (by decide)
    (fun before hbefore ↦ hpending before ((List.mem_inits before _).mpr hbefore)) hleaves
  exact absurd heven (by decide)

end Editing

end SideHOS.Serial.Input
