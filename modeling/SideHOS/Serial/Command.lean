import SideHOS.Serial.Input

/-!
# The command buffer

`kgets` reads into the 255 bytes of `CommandContext.command`, but `serial_read_str` takes 255
characters and puts a `NUL` after them.  So the stores stay in the buffer as long as fewer than 255
characters are pending, where an erasing byte on an empty line counts as a character until the next
one comes; the 255th puts its `NUL` into `CommandContext.cursor`.
-/

namespace SideHOS.Serial.Input

open Kernel.Input Machine.LineEditor Machine.Word64 Machine.ByteMemory Sharing Sharing.Program

def InCommand (commandContext address : ℕ) : Prop :=
  ∃ i < commandSize, address = add (command commandContext) i

/-- `kgets` ends, it stores in `CommandContext.command` only, it changes no other byte, and there is
a `NUL` in `CommandContext.command` afterwards. -/
def StaysInside (commandContext : ℕ) (memory : Memory) (received : List UInt8) : Prop :=
  ∃ fuel after,
    run execInput (kgets commandContext fuel) ⟨memory, received⟩ =
      some (command commandContext, after) ∧
    (∀ address ∈ stores (accesses execInput (kgets commandContext fuel) ⟨memory, received⟩),
      InCommand commandContext address) ∧
    (∀ x, ¬ InCommand commandContext x → after.memory x = memory x) ∧
    ∃ x, InCommand commandContext x ∧ after.memory x = 0

section Command

variable {commandContext fuel i : ℕ} {memory : Memory} {state after : InputState} {stop : UInt8}
  {line keys rest : List UInt8}

theorem run_kgets_iff :
    run execInput (kgets commandContext fuel) state = some (command commandContext, after) ↔
      run execInput (serialReadStr (command commandContext) fuel) state = some ((), after) := by
  rw [kgets, run_bind]
  cases run execInput (serialReadStr (command commandContext) fuel) state with
  | none => simp
  | some result => simp [Prod.ext_iff]

theorem accesses_kgets :
    accesses execInput (kgets commandContext fuel) state =
      accesses execInput (serialReadStr (command commandContext) fuel) state :=
  accesses_bind_pure _ (fun _ ↦ command commandContext) _

theorem le_of_mem_indicesFrom (hline : line.length ≤ maxLen) (hi : i ∈ indicesFrom line keys) :
    i ≤ maxLen := by
  induction keys generalizing line with
  | nil =>
    rw [indicesFrom, List.mem_singleton] at hi
    exact hi.trans_le hline
  | cons key keys ih =>
    rw [indicesFrom, List.mem_append] at hi
    rcases hi with hkey | hkeys
    · rw [indices] at hkey
      split_ifs at hkey
      · have hlast := List.mem_singleton.mp hkey
        omega
      · rcases List.mem_pair.mp hkey with hfirst | hsecond
        · omega
        · omega
      · exact absurd hkey List.not_mem_nil
    · exact ih (keepWithin_length_le hline) hkeys

theorem indices_lt_iff {key : UInt8} (hline : line.length < maxLen) :
    (∀ i ∈ indices line key, i < maxLen) ↔ (keep Erases line key).length < maxLen := by
  rw [indices, keep]
  split_ifs with herase
  · rw [List.forall_mem_singleton, List.length_dropLast]
  · rw [List.forall_mem_cons, List.forall_mem_singleton, List.length_append, List.length_singleton]
    exact and_iff_right hline

/-- The stores stay below the limit exactly if the line does. -/
theorem indicesFrom_lt_iff (hline : line.length < maxLen) :
    (∀ i ∈ indicesFrom line keys, i < maxLen) ↔
      ∀ before, before <+: keys → (before.foldl (keep Erases) line).length < maxLen := by
  induction keys generalizing line with
  | nil => simp [indicesFrom]
  | cons key keys ih =>
    have hkeep : keepWithin Erases maxLen line key = keep Erases line key :=
      keepWithin_eq_keep (keep_length_le.trans hline)
    rw [indicesFrom, List.forall_mem_append, indices_lt_iff hline, forall_prefix_cons, hkeep]
    constructor
    · rintro ⟨hkey, hrest⟩
      exact ⟨hline, (ih hkey).mp hrest⟩
    · rintro ⟨-, hrest⟩
      have hkey := hrest [] List.nil_prefix
      exact ⟨hkey, (ih hkey).mpr hrest⟩

/-- The line of the code has the length of the edited line, and one more as long as an erasing byte
is kept at its front. -/
theorem length_keep :
    (keys.foldl (keep Erases) []).length = (edit Erases keys).length + idle Erases keys % 2 :=
  beside_edit.length_eq

/-- The stores of `kgets`. -/
theorem stores_kgets (hkeys : ∀ key ∈ keys, ¬ Ends key) (hstop : Ends stop)
    (hfuel : keys.length < fuel) :
    stores (accesses execInput (kgets commandContext fuel) ⟨memory, keys ++ stop :: rest⟩) =
      (indicesFrom [] keys).map (add (command commandContext)) := by
  rw [accesses_kgets, stores_serialReadStr hkeys hstop hfuel]

theorem staysInside_of_pending (hkeys : ∀ key ∈ keys, ¬ Ends key) (hstop : Ends stop)
    (hpending : ∀ before, before <+: keys → (before.foldl (keep Erases) []).length < commandSize) :
    StaysInside commandContext memory (keys ++ stop :: rest) := by
  obtain ⟨after, hrun, hline⟩ := run_serialReadStr memory (command commandContext) rest hkeys hstop
    (Nat.lt_succ_self keys.length)
  have hkgets := run_kgets_iff.mpr hrun
  have hstores : ∀ address ∈ stores (accesses execInput
      (kgets commandContext (keys.length + 1)) ⟨memory, keys ++ stop :: rest⟩),
      InCommand commandContext address := by
    intro address haddress
    rw [stores_kgets hkeys hstop (Nat.lt_succ_self keys.length)] at haddress
    obtain ⟨i, hi, rfl⟩ := List.mem_map.mp haddress
    exact ⟨i, (indicesFrom_lt_iff (by norm_num)).mpr hpending i hi, rfl⟩
  refine ⟨keys.length + 1, ⟨after, rest⟩, hkgets, hstores, fun x hx ↦ ?_, _, ?_, hline.terminated⟩
  · exact memory_of_not_stored hkgets fun hmem ↦ hx (hstores x hmem)
  · rw [foldl_keepWithin fun before hbefore ↦ (hpending before hbefore).le]
    exact ⟨_, hpending keys List.prefix_rfl, rfl⟩

theorem pending_of_staysInside (hkeys : ∀ key ∈ keys, ¬ Ends key) (hstop : Ends stop)
    (hinside : StaysInside commandContext memory (keys ++ stop :: rest)) :
    ∀ before, before <+: keys → (before.foldl (keep Erases) []).length < commandSize := by
  obtain ⟨fuel, after, hrun, hstores, -, -⟩ := hinside
  have hfuel : keys.length < fuel := fuel_of_run_serialReadStr hkeys (run_kgets_iff.mp hrun)
  rw [stores_kgets hkeys hstop hfuel] at hstores
  apply (indicesFrom_lt_iff (by norm_num)).mp
  intro i hi
  obtain ⟨j, hj, heq⟩ := hstores _ (List.mem_map_of_mem hi)
  have hle : i ≤ maxLen := by
    apply le_of_mem_indicesFrom _ hi
    exact Nat.zero_le maxLen
  rwa [add_inj hle hj.le heq]

/-- For every line, `kgets` stays inside the command buffer exactly if at no point before the end of
the line the editor has 255 characters, counting one more while an odd number of erasing bytes has
come with nothing to erase. -/
theorem command_inside_iff (hkeys : ∀ key ∈ keys, ¬ Ends key) (hstop : Ends stop) :
    StaysInside commandContext memory (keys ++ stop :: rest) ↔
      ∀ before, before <+: keys →
        (edit Erases before).length + idle Erases before % 2 < commandSize := by
  simp only [← length_keep]
  exact ⟨pending_of_staysInside hkeys hstop, staysInside_of_pending hkeys hstop⟩

/-- A short line, with one correction, for a buffer at address 4096. -/
theorem command_inside_ping :
    StaysInside 4096 (fun _ ↦ 255) ([112, 105, 120, 8, 110, 103] ++ 13 :: []) := by
  have hpending : ∀ before ∈ [112, 105, 120, 8, 110, (103 : UInt8)].inits,
      (edit Erases before).length + idle Erases before % 2 < commandSize := by decide
  refine (command_inside_iff (by simp) (by decide)).mpr fun before hbefore ↦ ?_
  exact hpending before ((List.mem_inits before _).mpr hbefore)

/-- A line of 255 characters. -/
theorem command_not_inside :
    ¬ StaysInside 4096 (fun _ ↦ 255) (List.replicate 255 97 ++ 13 :: []) := by
  intro hinside
  have hkeys : ∀ key ∈ List.replicate 255 (97 : UInt8), key = 97 :=
    fun _ hkey ↦ List.eq_of_mem_replicate hkey
  have hlength := pending_of_staysInside (fun key hkey ↦ by rw [hkeys key hkey]; decide)
    (by decide) hinside _ List.prefix_rfl
  rw [foldl_keep_eq_append fun key hkey ↦ by rw [hkeys key hkey]; decide, List.nil_append,
    List.length_replicate] at hlength
  exact lt_irrefl _ hlength

end Command

end SideHOS.Serial.Input
