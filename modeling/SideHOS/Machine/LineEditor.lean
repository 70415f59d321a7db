import Mathlib.Tactic

/-!
# Editing a line

A line editor collects keys; an erasing key removes the last character of the line.  On an empty
line it does nothing (`press`), or it is kept as if it were a character (`keep`), and an editor may
refuse characters beyond a limit (`keepWithin`).

The lines of the first two editors differ by at most one erasing key at the front, which comes and
goes with each erasing key on the empty line of the first.  The third does as the second as long as
the line stays within its limit.
-/

namespace SideHOS.Machine.LineEditor

variable {Key : Type} (erases : Key → Prop)

/-- A line beside another, with an erasing key at its front if the count is odd. -/
def Beside (line other : List Key) (count : ℕ) : Prop :=
  if Even count then other = line else ∃ key, erases key ∧ other = key :: line

theorem beside_self {line : List Key} : Beside erases line line 0 := by
  rw [Beside, if_pos Even.zero]

variable {erases} in
theorem Beside.length_eq {line other : List Key} {count : ℕ} (h : Beside erases line other count) :
    other.length = line.length + count % 2 := by
  rw [Beside] at h
  split_ifs at h with heven
  · rw [h, Nat.even_iff.mp heven, add_zero]
  · obtain ⟨key, -, rfl⟩ := h
    rw [Nat.not_even_iff.mp heven, List.length_cons]

variable [DecidablePred erases]

def press (line : List Key) (key : Key) : List Key :=
  if erases key then line.dropLast else line ++ [key]

def edit (keys : List Key) : List Key := keys.foldl (press erases) []

/-- The line after one more key, if an erasing key with nothing to erase is a character. -/
def keep (line : List Key) (key : Key) : List Key :=
  if erases key ∧ line ≠ [] then line.dropLast else line ++ [key]

/-- The line after one more key, if moreover no character is taken from `limit` on. -/
def keepWithin (limit : ℕ) (line : List Key) (key : Key) : List Key :=
  if erases key ∧ line ≠ [] then line.dropLast
  else if line.length < limit then line ++ [key] else line

def idleFrom : List Key → List Key → ℕ
  | _, [] => 0
  | line, key :: keys =>
    (if erases key ∧ line = [] then 1 else 0) + idleFrom (press erases line key) keys

def idle (keys : List Key) : ℕ := idleFrom erases [] keys

def idleKeysFrom : List Key → List Key → List Key
  | _, [] => []
  | line, key :: keys =>
    (if erases key ∧ line = [] then [key] else []) ++ idleKeysFrom (press erases line key) keys

def idleKeys (keys : List Key) : List Key := idleKeysFrom erases [] keys

section Editors

variable {erases} {line other keys : List Key} {key : Key} {count limit : ℕ}

theorem not_mem_press (h : ∀ kept ∈ line, ¬ erases kept) :
    ∀ kept ∈ press erases line key, ¬ erases kept := by
  intro kept hkept
  rw [press] at hkept
  split_ifs at hkept with hkey
  · exact h kept (List.mem_of_mem_dropLast hkept)
  · rcases List.mem_append.mp hkept with hline | hlast
    · exact h kept hline
    · rwa [List.mem_singleton.mp hlast]

/-- No erasing key is left in a line. -/
theorem not_mem_edit : ∀ kept ∈ edit erases keys, ¬ erases kept := by
  suffices hfrom : ∀ line : List Key, (∀ kept ∈ line, ¬ erases kept) →
      ∀ kept ∈ keys.foldl (press erases) line, ¬ erases kept from hfrom [] (by simp)
  induction keys with
  | nil => exact fun line hline ↦ hline
  | cons key keys ih => exact fun line hline ↦ ih _ (not_mem_press hline)

theorem keepWithin_length_le (h : line.length ≤ limit) :
    (keepWithin erases limit line key).length ≤ limit := by
  rw [keepWithin]
  split_ifs with herase hroom
  · rw [List.length_dropLast]
    omega
  · rw [List.length_append, List.length_singleton]
    omega
  · exact h

theorem edit_concat : edit erases (keys ++ [key]) = press erases (edit erases keys) key := by
  rw [edit, List.foldl_append]
  rfl

theorem length_idleKeysFrom :
    (idleKeysFrom erases line keys).length = idleFrom erases line keys := by
  induction keys generalizing line with
  | nil => rfl
  | cons key keys ih =>
    rw [idleKeysFrom, idleFrom, List.length_append, ih]
    congr 1
    split_ifs <;> rfl

theorem length_idleKeys : (idleKeys erases keys).length = idle erases keys := length_idleKeysFrom

theorem idleKeysFrom_append (later : List Key) :
    idleKeysFrom erases line (keys ++ later) =
      idleKeysFrom erases line keys ++
        idleKeysFrom erases (keys.foldl (press erases) line) later := by
  induction keys generalizing line with
  | nil => rfl
  | cons key keys ih =>
    rw [List.cons_append, idleKeysFrom, ih, idleKeysFrom, List.append_assoc, List.foldl_cons]

theorem idleKeys_concat : idleKeys erases (keys ++ [key]) =
    idleKeys erases keys ++ if erases key ∧ edit erases keys = [] then [key] else [] := by
  rw [idleKeys, idleKeysFrom_append, idleKeysFrom, idleKeysFrom, List.append_nil]
  rfl

theorem keep_eq_press (h : ¬ (erases key ∧ line = [])) :
    keep erases line key = press erases line key := by
  by_cases herase : erases key
  · rw [keep, press, if_pos ⟨herase, fun hempty ↦ h ⟨herase, hempty⟩⟩, if_pos herase]
  · rw [keep, press, if_neg fun hboth ↦ herase hboth.1, if_neg herase]

theorem keep_cons {front : Key} (h : ¬ (erases key ∧ line = [])) :
    keep erases (front :: line) key = front :: press erases line key := by
  by_cases herase : erases key
  · have hline : line ≠ [] := fun hempty ↦ h ⟨herase, hempty⟩
    rw [keep, press, if_pos ⟨herase, List.cons_ne_nil _ _⟩, if_pos herase,
      List.dropLast_cons_of_ne_nil hline]
  · rw [keep, press, if_neg fun hboth ↦ herase hboth.1, if_neg herase, List.cons_append]

theorem keep_length_le : (keep erases line key).length ≤ line.length + 1 := by
  rw [keep]
  split_ifs
  · rw [List.length_dropLast]
    omega
  · rw [List.length_append, List.length_singleton]

/-- One more key. -/
theorem Beside.keep (h : Beside erases line other count) :
    Beside erases (press erases line key) (keep erases other key)
      (count + if erases key ∧ line = [] then 1 else 0) := by
  by_cases hidle : erases key ∧ line = []
  · have hpress : press erases line key = [] := by
      rw [press, if_pos hidle.1, hidle.2, List.dropLast_nil]
    rw [if_pos hidle, hpress, Beside]
    rw [Beside] at h
    by_cases heven : Even count
    · rw [if_pos heven, hidle.2] at h
      rw [if_neg (by rwa [Nat.even_add_one, not_not]), h]
      exact ⟨key, hidle.1, if_neg fun hboth ↦ hboth.2 rfl⟩
    · rw [if_neg heven, hidle.2] at h
      obtain ⟨front, -, rfl⟩ := h
      rw [if_pos (Nat.even_add_one.mpr heven)]
      exact if_pos ⟨hidle.1, List.cons_ne_nil _ _⟩
  · rw [if_neg hidle, add_zero, Beside]
    rw [Beside] at h
    split_ifs at h ⊢ with heven
    · rw [h, keep_eq_press hidle]
    · obtain ⟨front, hfront, rfl⟩ := h
      exact ⟨front, hfront, keep_cons hidle⟩

/-- Any number of keys. -/
theorem Beside.foldl (h : Beside erases line other count) :
    Beside erases (keys.foldl (press erases) line) (keys.foldl (LineEditor.keep erases) other)
      (count + idleFrom erases line keys) := by
  induction keys generalizing line other count with
  | nil => exact h
  | cons key keys ih =>
    rw [idleFrom, ← add_assoc]
    exact ih h.keep

/-- The two editors, both starting with an empty line. -/
theorem beside_edit :
    Beside erases (edit erases keys) (keys.foldl (keep erases) []) (idle erases keys) := by
  have h : Beside erases (edit erases keys) (keys.foldl (keep erases) [])
      (0 + idleFrom erases [] keys) := (beside_self erases).foldl
  rwa [zero_add] at h

/-- Without erasing keys, every key is a character. -/
theorem foldl_keep_eq_append (h : ∀ key ∈ keys, ¬ erases key) :
    keys.foldl (keep erases) line = line ++ keys := by
  induction keys generalizing line with
  | nil => rw [List.append_nil, List.foldl_nil]
  | cons key keys ih =>
    have hkey : keep erases line key = line ++ [key] :=
      if_neg fun hboth ↦ h key List.mem_cons_self hboth.1
    rw [List.foldl_cons, hkey, ih fun other hother ↦ h other (List.mem_cons_of_mem _ hother),
      List.append_assoc, List.singleton_append]

theorem keepWithin_eq_keep (h : (keep erases line key).length ≤ limit) :
    keepWithin erases limit line key = keep erases line key := by
  by_cases herase : erases key ∧ line ≠ []
  · rw [keepWithin, keep, if_pos herase, if_pos herase]
  · rw [keep, if_neg herase, List.length_append, List.length_singleton] at h
    rw [keepWithin, keep, if_neg herase, if_neg herase, if_pos (Nat.lt_of_succ_le h)]

/-- What holds of every prefix of a list holds of the empty list, and of every prefix that begins
with the first entry. -/
theorem forall_prefix_cons {holds : List Key → Prop} :
    (∀ before, before <+: key :: keys → holds before) ↔
      holds [] ∧ ∀ before, before <+: keys → holds (key :: before) := by
  constructor
  · intro h
    exact ⟨h [] List.nil_prefix, fun before hbefore ↦
      h _ ((List.prefix_cons_inj key).mpr hbefore)⟩
  · rintro ⟨hnil, hcons⟩ before hbefore
    rcases List.prefix_cons_iff.mp hbefore with rfl | ⟨rest, rfl, hrest⟩
    · exact hnil
    · exact hcons rest hrest

/-- A line that never exceeds the limit is not affected by it. -/
theorem foldl_keepWithin
    (h : ∀ before, before <+: keys → (before.foldl (keep erases) line).length ≤ limit) :
    keys.foldl (keepWithin erases limit) line = keys.foldl (keep erases) line := by
  induction keys generalizing line with
  | nil => rfl
  | cons key keys ih =>
    have hrest := (forall_prefix_cons.mp h).2
    have hkey : keepWithin erases limit line key = keep erases line key :=
      keepWithin_eq_keep (hrest [] List.nil_prefix)
    rw [List.foldl_cons, List.foldl_cons, hkey]
    exact ih hrest

end Editors

end SideHOS.Machine.LineEditor
