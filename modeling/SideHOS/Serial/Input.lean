import SideHOS.Kernel.Input
import SideHOS.Machine.LineEditor
import SideHOS.Sharing.Trace

/-!
# What `serial_read_str` leaves in its buffer

For every sequence of bytes that ends with its first carriage return or line feed, the loop does
what an editor does that takes an erasing byte on an empty line for a character, with room for 255
characters.  It keeps the characters of the line at the start of the buffer, and
`indicesFrom` lists the indices at which it stores.
-/

namespace SideHOS.Serial.Input

open Kernel.Input Machine.LineEditor Machine.Word64 Machine.ByteMemory Sharing Sharing.Program

/-- Backspace and delete. -/
abbrev Erases (byte : UInt8) : Prop := byte = 8 ∨ byte = 127

/-- Carriage return and line feed. -/
abbrev Ends (byte : UInt8) : Prop := byte = 13 ∨ byte = 10

def stores (operations : List InputAccess) : List ℕ :=
  operations.filterMap fun
    | .store address _ => some address
    | _ => none

def Holds (memory : Memory) (buffer : ℕ) (bytes : List UInt8) : Prop :=
  ∀ i (hi : i < bytes.length), memory (add buffer i) = bytes[i]

/-- The buffer holds the line, and a `NUL` after it. -/
structure LineIn (memory : Memory) (buffer : ℕ) (line : List UInt8) : Prop where
  holds : Holds memory buffer line
  terminated : memory (add buffer line.length) = 0

/-- The memory after one more byte, with the line so far. -/
def storeKey (memory : Memory) (buffer : ℕ) (line : List UInt8) (key : UInt8) : Memory :=
  if Erases key ∧ line ≠ [] then store8 memory (add buffer (line.length - 1)) 0
  else if line.length < maxLen then
    store8 (store8 memory (add buffer line.length) key) (add buffer (line.length + 1)) 0
  else memory

def indices (line : List UInt8) (key : UInt8) : List ℕ :=
  if Erases key ∧ line ≠ [] then [line.length - 1]
  else if line.length < maxLen then [line.length, line.length + 1] else []

/-- The indices of all stores for the bytes before the end of the line, and of the last store. -/
def indicesFrom : List UInt8 → List UInt8 → List ℕ
  | line, [] => [line.length]
  | line, key :: keys => indices line key ++ indicesFrom (keepWithin Erases maxLen line key) keys

section Input

variable {memory : Memory} {buffer fuel index i x : ℕ} {key stop : UInt8}
  {line keys rest : List UInt8}

theorem run_serialRead :
    run execInput serialRead ⟨memory, key :: rest⟩ = some (key, ⟨memory, rest⟩) := by
  change some (key.toNat.toUInt8, InputState.mk memory rest) = _
  rw [Nat.toUInt8_eq, UInt8.ofNat_toNat]

theorem stores_serialRead :
    stores (accesses execInput serialRead ⟨memory, key :: rest⟩) = [] := rfl

/-- A turn of the loop. -/
theorem run_serialReadStrFrom_cons :
    run execInput (serialReadStrFrom buffer (fuel + 1) index) ⟨memory, key :: rest⟩ =
      if Ends key then some ((), ⟨store8 memory (add buffer index) 0, rest⟩)
      else if Erases key ∧ index > 0 then
        run execInput (serialReadStrFrom buffer fuel (index - 1))
          ⟨store8 memory (add buffer (index - 1)) 0, rest⟩
      else if index < maxLen then
        run execInput (serialReadStrFrom buffer fuel (index + 1))
          ⟨store8 (store8 memory (add buffer index) key) (add buffer (index + 1)) 0, rest⟩
      else run execInput (serialReadStrFrom buffer fuel index) ⟨memory, rest⟩ := by
  rw [serialReadStrFrom, run_bind_of_eq run_serialRead, run_ite, run_ite, run_ite]
  rfl

/-- The stores of a turn of the loop. -/
theorem stores_serialReadStrFrom_cons :
    stores (accesses execInput (serialReadStrFrom buffer (fuel + 1) index)
        ⟨memory, key :: rest⟩) =
      if Ends key then [add buffer index]
      else if Erases key ∧ index > 0 then
        add buffer (index - 1) ::
          stores (accesses execInput (serialReadStrFrom buffer fuel (index - 1))
            ⟨store8 memory (add buffer (index - 1)) 0, rest⟩)
      else if index < maxLen then
        add buffer index :: add buffer (index + 1) ::
          stores (accesses execInput (serialReadStrFrom buffer fuel (index + 1))
            ⟨store8 (store8 memory (add buffer index) key) (add buffer (index + 1)) 0, rest⟩)
      else stores (accesses execInput (serialReadStrFrom buffer fuel index) ⟨memory, rest⟩) := by
  rw [serialReadStrFrom, accesses_bind, run_serialRead, stores, List.filterMap_append, ← stores,
    stores_serialRead, List.nil_append, Option.elim_some, accesses_ite, accesses_ite, accesses_ite]
  split_ifs <;> rfl

theorem add_inj {j : ℕ} (hi : i ≤ maxLen) (hj : j ≤ maxLen) (h : add buffer i = add buffer j) :
    i = j := by
  have hmax : maxLen = 255 := rfl
  unfold add at h
  omega

/-- A store behind the line. -/
theorem Holds.store (h : Holds memory buffer line) (hi : line.length ≤ i) (hmax : i ≤ maxLen) :
    Holds (store8 memory (add buffer i) key) buffer line := by
  intro j hj
  have hne : add buffer j ≠ add buffer i := fun heq ↦
    absurd (add_inj (by omega) hmax heq) (by omega)
  rw [store8_of_ne hne, h j hj]

/-- A store at the end of the line. -/
theorem Holds.append (h : Holds memory buffer line) (hmax : line.length ≤ maxLen) :
    Holds (store8 memory (add buffer line.length) key) buffer (line ++ [key]) := by
  intro j hj
  rw [List.length_append, List.length_singleton] at hj
  by_cases hlast : j = line.length
  · subst hlast
    rw [List.getElem_append_right le_rfl, store8, Function.update_self]
    simp
  · rw [List.getElem_append_left (by omega)]
    exact h.store le_rfl hmax j (by omega)

/-- The end of the line goes. -/
theorem Holds.dropLast (h : Holds memory buffer line) : Holds memory buffer line.dropLast := by
  intro j hj
  rw [List.getElem_dropLast]
  exact h j _

/-- The line after one more byte. -/
theorem Holds.keepWithin (h : Holds memory buffer line) (hmax : line.length ≤ maxLen) :
    Holds (storeKey memory buffer line key) buffer
      (Machine.LineEditor.keepWithin Erases maxLen line key) := by
  rw [storeKey, Machine.LineEditor.keepWithin]
  split_ifs with herase hroom
  · exact h.dropLast.store (by rw [List.length_dropLast]) (by omega)
  · apply (h.append hmax).store
    · rw [List.length_append, List.length_singleton]
    · exact hroom
  · exact h

/-- The tests of the loop, in terms of the line. -/
theorem erases_pos_iff : (Erases key ∧ line.length > 0) ↔ (Erases key ∧ line ≠ []) := by
  rw [gt_iff_lt, List.length_pos_iff]

theorem length_keepWithin : (keepWithin Erases maxLen line key).length =
    if Erases key ∧ line ≠ [] then line.length - 1
    else if line.length < maxLen then line.length + 1 else line.length := by
  rw [keepWithin]
  split_ifs
  · rw [List.length_dropLast]
  · rw [List.length_append, List.length_singleton]
  · rfl

/-- A byte before the end of the line. -/
theorem run_key (hkey : ¬ Ends key) :
    run execInput (serialReadStrFrom buffer (fuel + 1) line.length) ⟨memory, key :: rest⟩ =
      run execInput
        (serialReadStrFrom buffer fuel (keepWithin Erases maxLen line key).length)
        ⟨storeKey memory buffer line key, rest⟩ := by
  rw [run_serialReadStrFrom_cons, if_neg hkey, length_keepWithin, storeKey]
  simp only [erases_pos_iff]
  split_ifs <;> rfl

theorem stores_key (hkey : ¬ Ends key) :
    stores (accesses execInput (serialReadStrFrom buffer (fuel + 1) line.length)
        ⟨memory, key :: rest⟩) =
      (indices line key).map (add buffer) ++
        stores (accesses execInput
          (serialReadStrFrom buffer fuel (keepWithin Erases maxLen line key).length)
          ⟨storeKey memory buffer line key, rest⟩) := by
  rw [stores_serialReadStrFrom_cons, if_neg hkey, length_keepWithin, storeKey, indices]
  simp only [erases_pos_iff]
  split_ifs <;> rfl

/-- The loop ends at the first end of a line, and leaves the line in the buffer. -/
theorem run_keys (hkeys : ∀ key ∈ keys, ¬ Ends key) (hstop : Ends stop)
    (hfuel : keys.length < fuel) (hline : Holds memory buffer line) (hmax : line.length ≤ maxLen) :
    ∃ after, run execInput (serialReadStrFrom buffer fuel line.length)
        ⟨memory, keys ++ stop :: rest⟩ = some ((), ⟨after, rest⟩) ∧
      LineIn after buffer (keys.foldl (keepWithin Erases maxLen) line) := by
  induction keys generalizing memory line fuel with
  | nil =>
    cases fuel with
    | zero => exact absurd hfuel (Nat.not_lt_zero _)
    | succ fuel =>
      refine ⟨_, ?_, hline.store le_rfl hmax, Function.update_self _ _ _⟩
      rw [List.nil_append, run_serialReadStrFrom_cons, if_pos hstop]
  | cons key keys ih =>
    cases fuel with
    | zero => exact absurd hfuel (Nat.not_lt_zero _)
    | succ fuel =>
      rw [List.cons_append, run_key (hkeys key List.mem_cons_self)]
      exact ih (fun other hother ↦ hkeys other (List.mem_cons_of_mem _ hother))
        (Nat.lt_of_succ_lt_succ hfuel) (hline.keepWithin hmax) (keepWithin_length_le hmax)

/-- The stores of the loop. -/
theorem stores_keys (hkeys : ∀ key ∈ keys, ¬ Ends key) (hstop : Ends stop)
    (hfuel : keys.length < fuel) :
    stores (accesses execInput (serialReadStrFrom buffer fuel line.length)
        ⟨memory, keys ++ stop :: rest⟩) = (indicesFrom line keys).map (add buffer) := by
  induction keys generalizing memory line fuel with
  | nil =>
    cases fuel with
    | zero => exact absurd hfuel (Nat.not_lt_zero _)
    | succ fuel =>
      rw [List.nil_append, stores_serialReadStrFrom_cons, if_pos hstop]
      rfl
  | cons key keys ih =>
    cases fuel with
    | zero => exact absurd hfuel (Nat.not_lt_zero _)
    | succ fuel =>
      rw [List.cons_append, stores_key (hkeys key List.mem_cons_self), indicesFrom,
        List.map_append, ih (fun other hother ↦ hkeys other (List.mem_cons_of_mem _ hother))
          (Nat.lt_of_succ_lt_succ hfuel)]

/-- The loop needs a turn for each byte, and one for the end of the line. -/
theorem fuel_of_run {result : Unit × InputState} (hkeys : ∀ key ∈ keys, ¬ Ends key)
    (hrun : run execInput (serialReadStrFrom buffer fuel line.length)
      ⟨memory, keys ++ stop :: rest⟩ = some result) : keys.length < fuel := by
  induction keys generalizing memory line fuel with
  | nil =>
    cases fuel with
    | zero => cases hrun
    | succ fuel => exact Nat.succ_pos fuel
  | cons key keys ih =>
    cases fuel with
    | zero => cases hrun
    | succ fuel =>
      rw [List.cons_append, run_key (hkeys key List.mem_cons_self)] at hrun
      exact Nat.succ_lt_succ
        (ih (fun other hother ↦ hkeys other (List.mem_cons_of_mem _ hother)) hrun)

theorem holds_nil : Holds memory buffer [] := by
  intro i hi
  exact absurd hi (Nat.not_lt_zero i)

/-- The loop starts with the empty line. -/
theorem serialReadStr_eq :
    serialReadStr buffer fuel = serialReadStrFrom buffer fuel ([] : List UInt8).length := rfl

/-- `serial_read_str` leaves the line in the buffer, whatever is received before its end. -/
theorem run_serialReadStr (memory : Memory) (buffer : ℕ) (rest : List UInt8)
    (hkeys : ∀ key ∈ keys, ¬ Ends key) (hstop : Ends stop) (hfuel : keys.length < fuel) :
    ∃ after, run execInput (serialReadStr buffer fuel) ⟨memory, keys ++ stop :: rest⟩ =
        some ((), ⟨after, rest⟩) ∧
      LineIn after buffer (keys.foldl (keepWithin Erases maxLen) []) := by
  rw [serialReadStr_eq]
  exact run_keys hkeys hstop hfuel holds_nil (Nat.zero_le maxLen)

theorem stores_serialReadStr (hkeys : ∀ key ∈ keys, ¬ Ends key) (hstop : Ends stop)
    (hfuel : keys.length < fuel) :
    stores (accesses execInput (serialReadStr buffer fuel) ⟨memory, keys ++ stop :: rest⟩) =
      (indicesFrom [] keys).map (add buffer) := by
  rw [serialReadStr_eq]
  exact stores_keys hkeys hstop hfuel

theorem fuel_of_run_serialReadStr {result : Unit × InputState} (hkeys : ∀ key ∈ keys, ¬ Ends key)
    (hrun : run execInput (serialReadStr buffer fuel) ⟨memory, keys ++ stop :: rest⟩ =
      some result) : keys.length < fuel := by
  rw [serialReadStr_eq] at hrun
  exact fuel_of_run hkeys hrun

theorem not_mem_stores_cons {operation : InputAccess} {operations : List InputAccess}
    (hx : x ∉ stores (operation :: operations)) :
    (∀ byte, operation ≠ .store x byte) ∧ x ∉ stores operations := by
  constructor
  · rintro byte rfl
    exact hx List.mem_cons_self
  · cases operation with
    | store address byte => exact fun hmem ↦ hx (List.mem_cons_of_mem _ hmem)
    | serialReceived => exact hx
    | inb => exact hx
    | serialWrite byte => exact hx

/-- An access that is no store there does not change a byte. -/
theorem execInput_memory {operation : InputAccess} {state : InputState}
    (h : ∀ byte, operation ≠ .store x byte) :
    (execInput operation state).2.memory x = state.memory x := by
  cases operation with
  | store address byte => exact store8_of_ne fun heq ↦ h byte (heq ▸ rfl)
  | serialReceived => rfl
  | inb => rfl
  | serialWrite byte => rfl

/-- Only stores change the memory. -/
theorem memory_of_not_stored {α : Type} {program : InputCode α} {state : InputState}
    {result : α × InputState} (hrun : run execInput program state = some result)
    (hx : x ∉ stores (accesses execInput program state)) :
    result.2.memory x = state.memory x := by
  induction program generalizing state with
  | done value =>
    cases hrun
    rfl
  | access operation next ih =>
    rw [run] at hrun
    rw [accesses] at hx
    obtain ⟨hoperation, hnext⟩ := not_mem_stores_cons hx
    exact (ih _ hrun hnext).trans (execInput_memory hoperation)
  | await operation next ih =>
    rw [run] at hrun
    rw [accesses] at hx
    obtain ⟨hoperation, hnext⟩ := not_mem_stores_cons hx
    split_ifs at hrun hnext
    exact (ih hrun hnext).trans (execInput_memory hoperation)
  | diverge => cases hrun

end Input

end SideHOS.Serial.Input
