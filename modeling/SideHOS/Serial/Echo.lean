import SideHOS.Machine.Terminal
import SideHOS.Serial.Editing
import SideHOS.Serial.Reception

/-!
# What the user sees of a command line

`echoFrom` lists what `serial_read_str` writes back for each byte.  On a terminal that shows the
prompt on a line of its own, the echo puts the line of the editor behind the prompt, whatever the
buffer holds.  Only a byte that arrives with nothing to erase does otherwise: it is put into the
buffer, or takes such a byte out of it, and nothing of it appears, but the cursor goes back over the
prompt unless the byte is a delete that is put into the buffer.
-/

namespace SideHOS.Serial.Input

open Kernel Kernel.Input Machine Machine.LineEditor Machine.Screen Machine.Terminal Machine.Word64
  Machine.ByteMemory Sharing Sharing.Program

/-- What is written back for a byte, with the line so far. -/
def echo (line : List UInt8) (key : UInt8) : List UInt8 :=
  if Erases key ∧ line ≠ [] then [8, 32, 8] else if line.length < maxLen then [key] else []

/-- What is written back for the bytes before the end of the line. -/
def echoFrom : List UInt8 → List UInt8 → List UInt8
  | _, [] => []
  | line, key :: keys => echo line key ++ echoFrom (keepWithin Erases maxLen line key) keys

section Echo

variable {Device : Type} {uart : Uart Device com1} {memory : Memory}
  {buffer fuel index commandContext : ℕ} {key stop : UInt8} {line keys before rest : List UInt8}

/-! ## The echo -/

theorem echoed_serialRead :
    echoed (accesses execInput Kernel.Input.serialRead ⟨memory, key :: rest⟩) = [] := rfl

/-- The echo of a turn of the loop. -/
theorem echoed_serialReadStrFrom_cons :
    echoed (accesses execInput (serialReadStrFrom buffer (fuel + 1) index)
        ⟨memory, key :: rest⟩) =
      if Ends key then [13, 10]
      else if Erases key ∧ index > 0 then
        [8, 32, 8] ++ echoed (accesses execInput (serialReadStrFrom buffer fuel (index - 1))
          ⟨store8 memory (add buffer (index - 1)) 0, rest⟩)
      else if index < maxLen then
        [key] ++ echoed (accesses execInput (serialReadStrFrom buffer fuel (index + 1))
          ⟨store8 (store8 memory (add buffer index) key) (add buffer (index + 1)) 0, rest⟩)
      else echoed (accesses execInput (serialReadStrFrom buffer fuel index) ⟨memory, rest⟩) := by
  rw [serialReadStrFrom, accesses_bind, run_serialRead, echoed, List.filterMap_append, ← echoed,
    echoed_serialRead, List.nil_append, Option.elim_some, accesses_ite, accesses_ite, accesses_ite]
  split_ifs <;> rfl

theorem echoed_key (hkey : ¬ Ends key) :
    echoed (accesses execInput (serialReadStrFrom buffer (fuel + 1) line.length)
        ⟨memory, key :: rest⟩) =
      echo line key ++ echoed (accesses execInput
        (serialReadStrFrom buffer fuel (keepWithin Erases maxLen line key).length)
        ⟨storeKey memory buffer line key, rest⟩) := by
  rw [echoed_serialReadStrFrom_cons, if_neg hkey, length_keepWithin, storeKey, echo]
  simp only [erases_pos_iff]
  split_ifs <;> rfl

/-- What the loop writes back. -/
theorem echoed_keys (hkeys : ∀ key ∈ keys, ¬ Ends key) (hstop : Ends stop)
    (hfuel : keys.length < fuel) :
    echoed (accesses execInput (serialReadStrFrom buffer fuel line.length)
        ⟨memory, keys ++ stop :: rest⟩) = echoFrom line keys ++ [13, 10] := by
  induction keys generalizing memory line fuel with
  | nil =>
    cases fuel with
    | zero => exact absurd hfuel (Nat.not_lt_zero _)
    | succ fuel =>
      rw [List.nil_append, echoed_serialReadStrFrom_cons, if_pos hstop]
      rfl
  | cons key keys ih =>
    cases fuel with
    | zero => exact absurd hfuel (Nat.not_lt_zero _)
    | succ fuel =>
      rw [List.cons_append, echoed_key (hkeys key List.mem_cons_self), echoFrom,
        List.append_assoc, ih (fun other hother ↦ hkeys other (List.mem_cons_of_mem _ hother))
          (Nat.lt_of_succ_lt_succ hfuel)]

theorem echoed_serialReadStr (hkeys : ∀ key ∈ keys, ¬ Ends key) (hstop : Ends stop)
    (hfuel : keys.length < fuel) :
    echoed (accesses execInput (serialReadStr buffer fuel) ⟨memory, keys ++ stop :: rest⟩) =
      echoFrom [] keys ++ [13, 10] := by
  rw [serialReadStr_eq]
  exact echoed_keys hkeys hstop hfuel

theorem echoFrom_append (front : List UInt8) :
    echoFrom line (front ++ keys) =
      echoFrom line front ++ echoFrom (front.foldl (keepWithin Erases maxLen) line) keys := by
  induction front generalizing line with
  | nil => rfl
  | cons key front ih =>
    rw [List.cons_append, echoFrom, ih, echoFrom, List.append_assoc, List.foldl_cons]

/-! ## A line from the device -/

/-- A run that ends has read a line. -/
theorem exists_line (line : List UInt8) {bytes : List UInt8} {result : Unit × InputState}
    (hrun : run execInput (serialReadStrFrom buffer fuel line.length) ⟨memory, bytes⟩ =
      some result) :
    ∃ keys stop rest, bytes = keys ++ stop :: rest ∧ (∀ key ∈ keys, ¬ Ends key) ∧ Ends stop := by
  induction bytes generalizing memory line fuel with
  | nil =>
    cases fuel with
    | zero => cases hrun
    | succ fuel => cases hrun
  | cons key bytes ih =>
    cases fuel with
    | zero => cases hrun
    | succ fuel =>
      by_cases hends : Ends key
      · exact ⟨[], key, bytes, rfl, by simp, hends⟩
      · rw [run_key hends] at hrun
        obtain ⟨keys, stop, rest, rfl, hkeys, hstop⟩ := ih _ hrun
        exact ⟨key :: keys, stop, rest, rfl, List.forall_mem_cons.mpr ⟨hends, hkeys⟩, hstop⟩

/-- Every run of `kgets` at the ports that ends has read the bytes that the device had taken in
and took in meanwhile up to the first end of a line, each once and in order.  Their line is in the
command buffer, the bytes behind it stay with the device, and the device has taken the whole
echo. -/
theorem kgets_at_ports {state final : PortState Device} {labels : List (List UInt8)} {value : ℕ}
    (hlatched : ¬ (uart.registers state.device).Latched)
    (hrun : RunAmong (execPort uart) (DeviceMoves uart) (inputToPorts (kgets commandContext fuel))
      state labels value final) :
    ∃ keys stop rest,
      (uart.traffic state.device).received ++ labels.flatten = keys ++ stop :: rest ∧
      (∀ key ∈ keys, ¬ Ends key) ∧ Ends stop ∧ value = command commandContext ∧
      LineIn final.memory (command commandContext) (keys.foldl (keepWithin Erases maxLen) []) ∧
      (uart.traffic final.device).received = rest ∧
      taken uart final.device = taken uart state.device ++ echoFrom [] keys ++ [13, 10] ∧
      uart.registers final.device = uart.registers state.device := by
  have hcomputes := computes_of_runAmong hrun (.before _) (polls_kgets commandContext fuel)
    (fun h ↦ absurd h Bool.false_ne_true) (fun h ↦ absurd h Bool.false_ne_true) hlatched
  obtain ⟨hkgets, hsent, hkept⟩ := hcomputes []
  rw [List.append_nil, List.append_nil] at hkgets
  rw [List.append_nil, accesses_kgets] at hsent
  have hvalue : value = command commandContext := by
    rw [kgets, run_bind] at hkgets
    cases hread : run execInput (serialReadStr (command commandContext) fuel) _ with
    | none =>
      rw [hread] at hkgets
      cases hkgets
    | some result =>
      rw [hread] at hkgets
      exact (congrArg Prod.fst (Option.some.inj hkgets)).symm
  rw [hvalue, run_kgets_iff] at hkgets
  obtain ⟨keys, stop, rest, hbytes, hkeys, hstop⟩ := exists_line [] hkgets
  rw [hbytes] at hkgets hsent
  have hfuel := fuel_of_run_serialReadStr hkeys hkgets
  obtain ⟨after, hread, hline⟩ := run_serialReadStr state.memory (command commandContext) rest
    hkeys hstop hfuel
  rw [hkgets] at hread
  cases hread
  rw [echoed_serialReadStr hkeys hstop hfuel, ← List.append_assoc] at hsent
  exact ⟨keys, stop, _, hbytes, hkeys, hstop, hvalue, hline, rfl, hsent, hkept⟩

/-- A port with two queues after `serial_init`, and nothing received. -/
def listening : PortState RegisterPort where
  device :=
    { registers := ⟨3, 0, 0, 0xC7, 3, 0x0B⟩
      traffic := ⟨[], [], []⟩ }
  serialLock := 0
  memory _ := 255

theorem deviceMoves_drained (state : PortState RegisterPort) :
    DeviceMoves (registerPort com1) state [] { state with device := state.device.drained } :=
  ⟨RegisterPort.moves_drained _, rfl, rfl⟩

/-- Two letters and a carriage return come in, and the device sends each byte of the echo. -/
theorem runAmong_letters : ∃ final,
    RunAmong (execPort (registerPort com1)) (DeviceMoves (registerPort com1))
      (inputToPorts (kgets 4096 3)) listening [[108, 115, 13], [], [], []] 4096 final := by
  have hreceives : DeviceMoves (registerPort com1) listening [108, 115, 13]
      { listening with device.traffic.received := [108, 115, 13] } :=
    ⟨⟨rfl, rfl, fun _ ↦ by decide, [], rfl, rfl⟩, rfl, rfl⟩
  exact ⟨_, .moved hreceives
    (.advance (.pass _ _ _ (by decide)) (.advance (.access _ _ _)
    (.advance (.pass _ _ _ (by decide)) (.advance (.access _ _ _)
    (.advance (.access _ _ _) (.advance (.access _ _ _) (.moved (deviceMoves_drained _)
    (.advance (.pass _ _ _ (by decide)) (.advance (.access _ _ _)
    (.advance (.pass _ _ _ (by decide)) (.advance (.access _ _ _)
    (.advance (.access _ _ _) (.advance (.access _ _ _) (.moved (deviceMoves_drained _)
    (.advance (.pass _ _ _ (by decide)) (.advance (.access _ _ _)
    (.advance (.pass _ _ _ (by decide)) (.advance (.access _ _ _) (.moved (deviceMoves_drained _)
    (.advance (.pass _ _ _ (by decide)) (.advance (.access _ _ _)
    (.advance (.access _ _ _) (.done _ _)))))))))))))))))))))))⟩

theorem kgets_at_ports_letters : ∃ final : PortState RegisterPort,
    LineIn final.memory (command 4096) [108, 115] ∧ final.device.traffic.received = [] ∧
      taken (registerPort com1) final.device = [108, 115, 13, 10] := by
  obtain ⟨final, hrun⟩ := runAmong_letters
  obtain ⟨keys, stop, rest, hbytes, hkeys, hstop, -, hline, hrest, htaken, -⟩ :=
    kgets_at_ports (by decide) hrun
  have hread : keys = [108, 115] ∧ rest = [] := by
    rcases keys with - | ⟨first, - | ⟨second, - | ⟨third, keys⟩⟩⟩
    · cases hbytes
      exact absurd hstop (by decide)
    · cases hbytes
      exact absurd hstop (by decide)
    · cases hbytes
      exact ⟨rfl, rfl⟩
    · obtain rfl : 13 = third := Option.some.inj (congrArg (·[2]?) hbytes)
      exact absurd (hkeys 13 (by simp)) (by decide)
  obtain ⟨rfl, rfl⟩ := hread
  exact ⟨final, hline, hrest, htaken⟩

/-! ## What the terminal shows -/

def Visible (key : UInt8) : Prop := Erases key ∨ Graphic key

theorem Visible.not_ends (h : Visible key) : ¬ Ends key := by
  rintro (rfl | rfl) <;> revert h <;> unfold Visible Erases Graphic <;> decide

/-- The prompt that `kmain` puts before the line. -/
def prompt : List UInt8 := textBytes ">"

/-- Nothing arrived with nothing to erase, or one delete. -/
def PromptStays (keys : List UInt8) : Prop :=
  idleKeys Erases keys = [] ∨ idleKeys Erases keys = [127]

/-- The line of the editor is behind the prompt, or has taken its place. -/
structure Displayed (screen : Screen) (keys : List UInt8) : Prop where
  behind : PromptStays keys → Shows screen (prompt ++ edit Erases keys)
  instead : ¬ PromptStays keys → Reads screen (edit Erases keys)

section Keys

variable {screen : Screen}

theorem Displayed.cursor_le (h : Displayed screen keys) :
    screen.cursor ≤ 1 + (edit Erases keys).length := by
  by_cases hstays : PromptStays keys
  · rw [(h.behind hstays).cursor, List.length_append]
    exact le_rfl
  · rw [(h.instead hstays).cursor]
    exact Nat.le_add_left _ _

/-- A key that does not arrive with nothing to erase leaves the prompt as it is. -/
theorem promptStays_concat (hkey : ¬ (Erases key ∧ edit Erases keys = [])) :
    PromptStays (keys ++ [key]) ↔ PromptStays keys := by
  rw [PromptStays, PromptStays, idleKeys_concat, if_neg hkey, List.append_nil]

theorem Displayed.put (h : Displayed screen keys) (hkey : ¬ Erases key) :
    Displayed (screen.put key) (keys ++ [key]) := by
  have hpress : edit Erases (keys ++ [key]) = edit Erases keys ++ [key] := by
    rw [edit_concat, press, if_neg hkey]
  have hstays : PromptStays (keys ++ [key]) ↔ PromptStays keys :=
    promptStays_concat fun hboth ↦ hkey hboth.1
  constructor
  · intro hkept
    rw [hpress, ← List.append_assoc]
    exact (h.behind (hstays.mp hkept)).put
  · intro hgone
    rw [hpress]
    exact (h.instead (hstays.not.mp hgone)).put

theorem Displayed.rubout (h : Displayed screen keys) (hkey : Erases key)
    (hline : edit Erases keys ≠ []) :
    Displayed (screen.back.put 32).back (keys ++ [key]) := by
  have hpress : edit Erases (keys ++ [key]) = (edit Erases keys).dropLast := by
    rw [edit_concat, press, if_pos hkey]
  have hstays : PromptStays (keys ++ [key]) ↔ PromptStays keys :=
    promptStays_concat fun hboth ↦ hline hboth.2
  constructor
  · intro hkept
    have hrubout := (h.behind (hstays.mp hkept)).rubout
    rwa [List.dropLast_append_of_ne_nil hline, ← hpress] at hrubout
  · intro hgone
    rw [hpress]
    exact (h.instead (hstays.not.mp hgone)).rubout

/-- With nothing to erase, the cursor goes back over the prompt. -/
theorem Displayed.reads_back (h : Displayed screen keys) (hline : edit Erases keys = []) :
    Reads screen.back [] := by
  by_cases hstays : PromptStays keys
  · have hback := (h.behind hstays).back
    rwa [hline] at hback
  · have hback := (h.instead hstays).back
    rwa [hline] at hback

/-- The second byte of a pair that arrives with nothing to erase. -/
theorem Displayed.rubout_prompt (h : Displayed screen keys) (hkey : Erases key)
    (hline : edit Erases keys = []) (hidle : idleKeys Erases keys ≠ []) :
    Displayed (screen.back.put 32).back (keys ++ [key]) := by
  have hpress : edit Erases (keys ++ [key]) = [] := by
    rw [edit_concat, press, if_pos hkey, hline, List.dropLast_nil]
  have hgone : ¬ PromptStays (keys ++ [key]) := by
    rw [PromptStays, idleKeys_concat, if_pos ⟨hkey, hline⟩]
    rintro (hnil | hone)
    · exact List.append_ne_nil_of_right_ne_nil _ (List.cons_ne_nil _ _) hnil
    · exact hidle (List.append_eq_singleton_iff.mp hone |>.elim And.left fun h ↦ by simp at h)
  refine ⟨fun hkept ↦ absurd hkept hgone, fun _ ↦ ?_⟩
  rw [hpress]
  exact (h.reads_back hline).put.back

/-- The first byte of a pair that arrives with nothing to erase. -/
theorem Displayed.pass_prompt (h : Displayed screen keys) (hkey : Erases key)
    (hline : edit Erases keys = []) (heven : Even (idle Erases keys)) :
    Displayed (if key = 8 then screen.back else screen) (keys ++ [key]) := by
  have hpress : edit Erases (keys ++ [key]) = [] := by
    rw [edit_concat, press, if_pos hkey, hline, List.dropLast_nil]
  have hstays : PromptStays (keys ++ [key]) ↔ idleKeys Erases keys = [] ∧ key = 127 := by
    rw [PromptStays, idleKeys_concat, if_pos ⟨hkey, hline⟩]
    simp [List.append_eq_singleton_iff]
  rcases hkey with rfl | rfl
  · rw [if_pos rfl]
    refine ⟨fun hkept ↦ absurd (hstays.mp hkept).2 (by decide), fun _ ↦ ?_⟩
    rw [hpress]
    exact h.reads_back hline
  · rw [if_neg (by decide)]
    constructor
    · intro hkept
      rw [hpress, ← hline]
      exact h.behind (.inl (hstays.mp hkept).1)
    · intro hgone
      rw [hpress, ← hline]
      apply h.instead
      rintro (hnone | hone)
      · exact hgone (hstays.mpr ⟨hnone, rfl⟩)
      · rw [← length_idleKeys, hone] at heven
        exact absurd heven (by decide)

/-- What is displayed against what the buffer holds. -/
theorem Displayed.held (h : Displayed screen keys)
    (hbeside : Beside Erases (edit Erases keys) line (idle Erases keys)) :
    (Shows screen (prompt ++ line) ↔ idle Erases keys = 0) ∧
      ((Reads screen line ∨ Reads screen (prompt ++ line)) ↔ Even (idle Erases keys)) := by
  rw [Beside] at hbeside
  by_cases heven : Even (idle Erases keys)
  · rw [if_pos heven] at hbeside
    rw [hbeside]
    by_cases hstays : PromptStays keys
    · have hidle : idle Erases keys = 0 := by
        rcases hstays with hnone | hone
        · rw [← length_idleKeys, hnone, List.length_nil]
        · rw [← length_idleKeys, hone] at heven
          exact absurd heven (by decide)
      have hshows := h.behind hstays
      exact ⟨iff_of_true hshows hidle, iff_of_true (.inr hshows.toReads) heven⟩
    · have hidle : idle Erases keys ≠ 0 := by
        rw [← length_idleKeys]
        exact fun hzero ↦ hstays (.inl (List.length_eq_zero_iff.mp hzero))
      have hreads := h.instead hstays
      refine ⟨iff_of_false (fun hshows ↦ ?_) hidle, iff_of_true (.inl hreads) heven⟩
      exact List.cons_ne_self _ _ (hshows.unique hreads)
  · rw [if_neg heven] at hbeside
    obtain ⟨front, hfront, rfl⟩ := hbeside
    have hidle : idle Erases keys ≠ 0 := fun hzero ↦ heven (hzero ▸ Even.zero)
    have hprompt : ¬ Reads screen (prompt ++ front :: edit Erases keys) := by
      intro hreads
      by_cases hstays : PromptStays keys
      · have hsame := hreads.unique (h.behind hstays).toReads
        exact List.cons_ne_self _ _ (List.append_cancel_left hsame)
      · have hlength := congrArg List.length (hreads.unique (h.instead hstays))
        rw [List.length_append, List.length_cons] at hlength
        omega
    have hbare : ¬ Reads screen (front :: edit Erases keys) := by
      intro hreads
      by_cases hstays : PromptStays keys
      · have hsame := hreads.unique (h.behind hstays).toReads
        rw [(List.cons.inj hsame).1] at hfront
        exact absurd hfront (by decide)
      · exact List.cons_ne_self _ _ (hreads.unique (h.instead hstays))
    exact ⟨iff_of_false (fun hshows ↦ hprompt hshows.toReads) hidle,
      iff_of_false (fun hreads ↦ hreads.elim hbare hprompt) heven⟩

end Keys

section Terminals

variable {Display : Type} {terminal : Terminal Display} {start : Display} {bytes : List UInt8}

/-- One more key, while the buffer holds another line. -/
theorem displayed_echo (h : Displayed (terminal.display start bytes) keys)
    (hbeside : Beside Erases (edit Erases keys) line (idle Erases keys)) (hkey : Visible key)
    (hbuffer : ¬ Erases key → line.length < maxLen)
    (hbefore : 1 + (edit Erases keys).length < terminal.columns)
    (hafter : 1 + (edit Erases (keys ++ [key])).length < terminal.columns) :
    Displayed (terminal.display start (bytes ++ echo line key)) (keys ++ [key]) := by
  have hcursor := h.cursor_le
  by_cases herase : Erases key
  · by_cases hempty : line = []
    · have hboth : edit Erases keys = [] ∧ Even (idle Erases keys) := by
        rw [Beside] at hbeside
        split_ifs at hbeside with heven
        · exact ⟨hbeside.symm.trans hempty, heven⟩
        · obtain ⟨front, -, hfront⟩ := hbeside
          rw [hempty] at hfront
          cases hfront
      have hpass := h.pass_prompt herase hboth.1 hboth.2
      have hroom : line.length < maxLen := by
        rw [hempty]
        exact Nat.zero_lt_succ 254
      rw [echo, if_neg fun hrubout ↦ hrubout.2 hempty, if_pos hroom]
      rcases herase with rfl | rfl
      · rwa [Terminal.display_backspace]
      · rwa [Terminal.display_delete]
    · rw [echo, if_pos ⟨herase, hempty⟩, Terminal.display_rubout (by omega)]
      by_cases hline : edit Erases keys = []
      · apply h.rubout_prompt herase hline
        intro hnone
        rw [← length_idleKeys, hnone, Beside, if_pos (by decide)] at hbeside
        exact hempty (hbeside.trans hline)
      · exact h.rubout herase hline
  · have hpress : (edit Erases (keys ++ [key])).length = (edit Erases keys).length + 1 := by
      rw [edit_concat, press, if_neg herase, List.length_append, List.length_singleton]
    rw [echo, if_neg fun hboth ↦ herase hboth.1, if_pos (hbuffer herase),
      Terminal.display_graphic (hkey.resolve_left herase) (by omega)]
    exact h.put herase

/-- The buffer has room for another character. -/
theorem length_lt_of_pending (hkey : ¬ Erases key)
    (hpending : ∀ before, before <+: keys ++ [key] → (edit Erases before).length < maxLen) :
    (keys.foldl (keepWithin Erases maxLen) []).length < maxLen := by
  have hedit := hpending _ List.prefix_rfl
  rw [edit_concat, press, if_neg hkey, List.length_append, List.length_singleton] at hedit
  calc (keys.foldl (keepWithin Erases maxLen) []).length
    _ = (keys.foldl (keep Erases) []).length := by
      rw [foldl_eq_keep fun before hbefore ↦
        hpending before (hbefore.trans (List.prefix_append ..))]
    _ = (edit Erases keys).length + idle Erases keys % 2 := beside_edit.length_eq
    _ ≤ (edit Erases keys).length + 1 := by omega
    _ < maxLen := hedit

theorem beside_keepWithin
    (hpending : ∀ before, before <+: keys → (edit Erases before).length < maxLen) :
    Beside Erases (edit Erases keys) (keys.foldl (keepWithin Erases maxLen) [])
      (idle Erases keys) := by
  rw [foldl_eq_keep hpending]
  exact beside_edit

/-- The prompt and the echo on a fresh line of a terminal. -/
theorem displayed_keys (hfresh : Shows (terminal.screen start) [])
    (hkeys : ∀ key ∈ keys, Visible key)
    (hpending : ∀ before, before <+: keys → (edit Erases before).length < maxLen)
    (hroom : ∀ before, before <+: keys →
      prompt.length + (edit Erases before).length < terminal.columns) :
    Displayed (terminal.display start (prompt ++ echoFrom [] keys)) keys := by
  induction keys using List.reverseRecOn with
  | nil =>
    have hcursor : (terminal.screen start).cursor = 0 := hfresh.cursor
    have hprompt : terminal.display start [62] = (terminal.screen start).put 62 :=
      by
      apply terminal.screen_graphic start 62 (by decide)
      rw [hcursor]
      exact hroom [] List.nil_prefix
    refine ⟨fun _ ↦ ?_, fun hgone ↦ absurd (.inl rfl) hgone⟩
    change Shows (terminal.display start [62]) [62]
    rw [hprompt]
    exact hfresh.put
  | append_singleton keys key ih =>
    have hearlier : ∀ {before}, before <+: keys → before <+: keys ++ [key] :=
      fun hbefore ↦ hbefore.trans (List.prefix_append ..)
    have hdisplayed := ih (fun other hother ↦ hkeys other (List.mem_append_left _ hother))
      (fun before hbefore ↦ hpending before (hearlier hbefore))
      (fun before hbefore ↦ hroom before (hearlier hbefore))
    rw [echoFrom_append, echoFrom, echoFrom, List.append_nil, ← List.append_assoc]
    exact displayed_echo hdisplayed
      (beside_keepWithin fun before hbefore ↦ hpending before (hearlier hbefore))
      (hkeys key (List.mem_append_right _ List.mem_cons_self))
      (fun hnot ↦ length_lt_of_pending hnot hpending)
      (hroom keys (hearlier List.prefix_rfl)) (hroom _ List.prefix_rfl)

end Terminals

end Echo

end SideHOS.Serial.Input
