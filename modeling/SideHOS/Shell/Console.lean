import Mathlib.Data.List.TakeWhile
import SideHOS.Bytes.Compare
import SideHOS.Kernel.Console
import SideHOS.Serial.Echo
import SideHOS.Shell.History

/-!
# What the console does with a line

A turn of the console runs the command whose name is the line in `CommandContext`, up to the first
`NUL` in it, and leaves `CommandContext` cleared.  So the turns of the loop are the commands typed,
one after another: at this level every byte of the line goes through memory, is compared and is
cleared, and the level of whole commands does what all that does.

The memory of the line and of the names is apart from that of the heap: `CommandContext` and the
literals belong to the kernel's image, of which no frame of the heap is a part.
-/

namespace SideHOS.Shell.Console

open Kernel Kernel.Console Machine.LineEditor Machine.Word64 Machine.ByteMemory Bytes Serial
  Sharing Sharing.Program

/-- The name of every command is a string in memory, apart from `CommandContext`. -/
structure Placed (memory : Memory) (hhdmOffset commandContext : ℕ) (nameAt : String → ℕ) :
    Prop where
  within : commandContext + commandContextSize < 2 ^ 64
  name : ∀ entry ∈ commands hhdmOffset, Strings.CString memory (nameAt entry.1) (textBytes entry.1)
  apart : ∀ entry ∈ commands hhdmOffset,
    nameAt entry.1 + (textBytes entry.1).length < commandContext ∨
      commandContext + commandContextSize ≤ nameAt entry.1

/-- The string at the start of a line. -/
def stringIn (typed : List UInt8) : List UInt8 := typed.takeWhile (· ≠ 0)

section Console

variable {state : ConsoleState} {memory after : Memory} {hhdmOffset commandContext fuel : ℕ}
  {nameAt : String → ℕ} {typed keys rest : List UInt8} {stop : UInt8}

def shellPart : Part execShell execConsole ConsoleAccess.shell where
  get := ConsoleState.shell
  put shell state := { state with shell := shell }
  get_put _ _ := rfl
  put_put _ _ _ := rfl
  put_get _ := rfl
  exec_eq _ _ := rfl

theorem run_inShell {α : Type} (code : ShellCode α) (state : ConsoleState) :
    run execConsole (inShell code) state = (run execShell code state.shell).map fun result ↦
      (result.1, { state with shell := result.2 }) :=
  shellPart.run_embed code state

def memoryPart : Part Copy.execByte execConsole byteName where
  get := ConsoleState.memory
  put memory state := { state with memory := memory }
  get_put _ _ := rfl
  put_put _ _ _ := rfl
  put_get _ := rfl
  exec_eq operation _ := by cases operation <;> rfl

theorem run_comparing {α : Type} (code : Copy.ByteCode α) (state : ConsoleState) :
    run execConsole (comparing code) state = (run Copy.execByte code state.memory).map fun result ↦
      (result.1, { state with memory := result.2 }) :=
  memoryPart.run_embed code state

/-- Reading a line also prints its echo. -/
theorem run_reading {α : Type} (code : Input.InputCode α) (state : ConsoleState) :
    run execConsole (reading code) state =
      (run Input.execInput code ⟨state.memory, state.received⟩).map fun result ↦
        (result.1,
          { shell := { state.shell with
              output := state.shell.output ++
                Serial.Input.echoed (accesses Input.execInput code ⟨state.memory, state.received⟩) }
            memory := result.2.memory
            received := result.2.received }) := by
  induction code generalizing state with
  | done value =>
    change some (value, state) = some (value, _)
    rw [accesses, Serial.Input.echoed, List.filterMap_nil, List.append_nil]
  | access operation next ih =>
    rw [reading, embed, run, run, accesses]
    refine (ih _ _).trans ?_
    cases operation with
    | serialWrite byte =>
      simp only [execConsole, readName, Input.execInput, execShell, SerialAccess.bytes,
        Serial.Input.echoed, List.filterMap_cons, List.append_assoc, List.singleton_append]
    | store address byte => rfl
    | serialReceived => rfl
    | inb => rfl
  | await operation next ih =>
    have hanswer : (execConsole (readName operation) state).1 =
        (Input.execInput operation ⟨state.memory, state.received⟩).1 := by
      cases operation <;> rfl
    rw [reading, embed, run, run, accesses, hanswer]
    by_cases hzero : (Input.execInput operation ⟨state.memory, state.received⟩).1 = 0
    · rw [if_pos hzero, if_pos hzero, if_pos hzero]
      rfl
    · rw [if_neg hzero, if_neg hzero, if_neg hzero]
      refine (ih _).trans ?_
      cases operation with
      | serialWrite byte => exact absurd rfl hzero
      | store address byte => exact absurd rfl hzero
      | serialReceived => rfl
      | inb => rfl
  | diverge => rfl

/-- Clearing some bytes fills them with zeros. -/
theorem run_clear (address count : ℕ) (hend : address + count < 2 ^ 64) (state : ConsoleState) :
    run execConsole (clear address count) state =
      some ((), { state with memory := fill state.memory address count 0 }) := by
  induction count generalizing address state with
  | zero => rw [clear, run_pure, fill_zero]
  | succ count ih =>
    rw [clear, run_perform_bind, add_of_lt (by omega), ih _ (by omega)]
    simp only [execConsole, fill_store8]

/-- The string is the line, or a `NUL` follows it. -/
theorem stringIn_cases (typed : List UInt8) :
    typed = stringIn typed ∨ ∃ rest, typed = stringIn typed ++ 0 :: rest := by
  induction typed with
  | nil => exact .inl rfl
  | cons byte typed ih =>
    by_cases hzero : byte = 0
    · right
      exact ⟨typed, by rw [stringIn, List.takeWhile_cons_of_neg (by simpa using hzero), hzero,
        List.nil_append]⟩
    · have hcons : stringIn (byte :: typed) = byte :: stringIn typed :=
        List.takeWhile_cons_of_pos (by simpa using hzero)
      rw [hcons]
      exact ih.imp (congrArg (byte :: ·)) fun ⟨rest, hrest⟩ ↦
        ⟨rest, congrArg (byte :: ·) hrest⟩

theorem not_mem_stringIn : 0 ∉ stringIn typed := by
  intro hmem
  have hne := List.mem_takeWhile_imp hmem
  exact absurd rfl (of_decide_eq_true hne)

/-- A line in `CommandContext` begins with a string. -/
theorem cString_stringIn (hline : Serial.Input.LineIn memory commandContext typed)
    (hend : commandContext + typed.length < 2 ^ 64) :
    Strings.CString memory commandContext (stringIn typed) := by
  have hbegins : stringIn typed <+: typed := List.takeWhile_prefix _
  have hbytes : ∀ i (hi : i < typed.length), memory (commandContext + i) = typed[i] := by
    intro i hi
    have hbyte := hline.holds i hi
    rwa [add_of_lt (by omega)] at hbyte
  refine ⟨(Nat.add_le_add_left hbegins.length_le _).trans_lt hend, ?_, not_mem_stringIn, ?_⟩
  · intro i hi
    rw [hbytes i (hi.trans_le hbegins.length_le)]
    exact (hbegins.getElem hi).symm
  · rcases stringIn_cases typed with heq | ⟨rest, heq⟩
    · have hzero := hline.terminated
      rwa [add_of_lt hend, heq] at hzero
    · have hlt : (stringIn typed).length < typed.length := by
        rw [congrArg List.length heq, List.length_append, List.length_cons]
        omega
      rw [hbytes _ hlt, List.getElem_of_eq heq, List.getElem_append_right le_rfl]
      simp

/-- The command of a name, or the last `else`. -/
def chosen (string : List UInt8) : List (String × ShellCode Unit) → ShellCode Unit
  | [] => putText "Invalid command"
  | entry :: entries => if string = textBytes entry.1 then entry.2 else chosen string entries

/-- It is what `kshell` runs at the level of whole commands. -/
theorem chosen_commands (string : List UInt8) :
    chosen string (commands hhdmOffset) = Kernel.kshell hhdmOffset string := rfl

/-- The commands are tried one after another. -/
theorem run_tryCommands {string : List UInt8} {entries : List (String × ShellCode Unit)}
    (hstring : Strings.CString state.memory commandContext string) (hfuel : string.length < fuel)
    (hnames : ∀ entry ∈ entries,
      Strings.CString state.memory (nameAt entry.1) (textBytes entry.1)) :
    run execConsole (tryCommands commandContext nameAt fuel entries) state =
      run execConsole (inShell (chosen string entries)) state := by
  induction entries with
  | nil => rfl
  | cons entry entries ih =>
    obtain ⟨value, hrun, hcompares⟩ :=
      run_strcmp hstring (hnames entry List.mem_cons_self) hfuel
    have hcompare : run execConsole
        (comparing (Compare.strcmp fuel commandContext (nameAt entry.1))) state =
          some (value, state) := by
      rw [run_comparing, hrun]
      rfl
    rw [tryCommands, run_bind_of_eq hcompare, chosen]
    by_cases hequal : string = textBytes entry.1
    · rw [if_pos (hcompares.equal.mpr hequal), if_pos hequal]
    · rw [if_neg (hcompares.equal.not.mpr hequal), if_neg hequal]
      exact ih fun other hother ↦ hnames other (List.mem_cons_of_mem _ hother)

/-- `kshell` runs the command of the string in `CommandContext`, and clears it. -/
theorem run_kshell {string : List UInt8}
    (hstring : Strings.CString state.memory commandContext string) (hfuel : string.length < fuel)
    (hplaced : Placed state.memory hhdmOffset commandContext nameAt) :
    run execConsole (kshell hhdmOffset commandContext nameAt fuel) state =
      (run execShell (Kernel.kshell hhdmOffset string) state.shell).map fun result ↦
        ((), { state with
          shell := result.2
          memory := fill state.memory commandContext commandContextSize 0 }) := by
  rw [Console.kshell, run_bind, run_tryCommands hstring hfuel hplaced.name, chosen_commands,
    run_inShell]
  cases run execShell (Kernel.kshell hhdmOffset string) state.shell with
  | none => rfl
  | some result =>
    rw [Option.map_some, Option.map_some, Option.bind_some, run_clear _ _ hplaced.within]

/-- A name is where it was if nothing but `CommandContext` was changed. -/
theorem Placed.congr (h : Placed memory hhdmOffset commandContext nameAt)
    (hkept : ∀ x, x < commandContext ∨ commandContext + commandContextSize ≤ x →
      after x = memory x) : Placed after hhdmOffset commandContext nameAt := by
  refine ⟨h.within, fun entry hentry ↦ ?_, h.apart⟩
  have hname := h.name entry hentry
  have hapart := h.apart entry hentry
  refine ⟨hname.within, fun i hi ↦ ?_, hname.ne_zero, ?_⟩
  · rw [hkept _ (by omega), hname.byte_eq i hi]
  · rw [hkept _ (by omega), hname.terminated]

/-- The line that is left of the keys. -/
def lineOf (keys : List UInt8) : List UInt8 :=
  keys.foldl (keepWithin Serial.Input.Erases Input.maxLen) []

theorem length_lineOf_le : (lineOf keys).length ≤ Input.maxLen := by
  rw [lineOf]
  induction keys using List.reverseRecOn with
  | nil => exact Nat.zero_le _
  | append_singleton keys key ih =>
    rw [List.foldl_append]
    exact keepWithin_length_le ih

/-- `kgets` leaves the line in `CommandContext` and changes nothing else. -/
theorem run_kgets (hkeys : ∀ key ∈ keys, ¬ Serial.Input.Ends key) (hstop : Serial.Input.Ends stop)
    (hfuel : keys.length < fuel) (hend : commandContext + commandContextSize < 2 ^ 64) :
    ∃ after, run Input.execInput (Input.kgets commandContext fuel) ⟨memory, keys ++ stop :: rest⟩ =
        some (commandContext, ⟨after, rest⟩) ∧
      Serial.Input.LineIn after commandContext (lineOf keys) ∧
      ∀ x, x < commandContext ∨ commandContext + commandContextSize ≤ x → after x = memory x := by
  obtain ⟨after, hrun, hline⟩ :=
    Serial.Input.run_serialReadStr memory commandContext rest hkeys hstop hfuel
  refine ⟨after, Serial.Input.run_kgets_iff.mpr hrun, hline, fun x hx ↦ ?_⟩
  apply Serial.Input.memory_of_not_stored hrun
  rw [Serial.Input.stores_serialReadStr hkeys hstop hfuel, List.mem_map]
  rintro ⟨i, hi, rfl⟩
  have hsize : commandContextSize = 256 := rfl
  have hlimit : Input.maxLen = 255 := rfl
  have hempty : ([] : List UInt8).length ≤ Input.maxLen := Nat.zero_le Input.maxLen
  have hmax : i ≤ Input.maxLen := Serial.Input.le_of_mem_indicesFrom hempty hi
  rw [add_of_lt (by omega)] at hx
  omega

def printed (shell : ShellState) (bytes : List UInt8) : ShellState :=
  { shell with output := shell.output ++ bytes }

def commandTurn (hhdmOffset : ℕ) (keys : List UInt8) (shell : ShellState) : Option ShellState :=
  (run execShell (Kernel.kshell hhdmOffset (stringIn (lineOf keys)))
    (printed shell (textBytes ">" ++ Serial.Input.echoFrom [] keys ++ [13, 10]))).map
      fun result ↦ printed result.2 (textBytes "\r\n")

theorem run_prints {text : String} (h : Printable text) (state : ConsoleState) :
    run execConsole (inShell (putText text)) state =
      some ((), { state with shell := printed state.shell (textBytes text) }) := by
  rw [run_inShell, run_putText h]
  rfl

/-- A turn of the console is the command of the line, and leaves `CommandContext` cleared. -/
theorem run_turn (hplaced : Placed memory hhdmOffset commandContext nameAt)
    (hkeys : ∀ key ∈ keys, ¬ Serial.Input.Ends key) (hstop : Serial.Input.Ends stop)
    (hfuel : keys.length < fuel) (hmax : Input.maxLen < fuel) (shell : ShellState) :
    run execConsole (turn hhdmOffset commandContext nameAt fuel)
        ⟨shell, memory, keys ++ stop :: rest⟩ =
      (commandTurn hhdmOffset keys shell).map fun next ↦
        ((), ⟨next, fill memory commandContext commandContextSize 0, rest⟩) := by
  obtain ⟨after, hkgets, hline, hkept⟩ :=
    @run_kgets memory commandContext fuel keys rest stop hkeys hstop hfuel hplaced.within
  have hread : run execConsole (reading (Input.kgets commandContext fuel))
      ⟨printed shell (textBytes ">"), memory, keys ++ stop :: rest⟩ =
        some (commandContext, ⟨printed shell (textBytes ">" ++ Serial.Input.echoFrom [] keys ++
          [13, 10]), after, rest⟩) := by
    rw [run_reading, hkgets, Serial.Input.accesses_kgets,
      Serial.Input.echoed_serialReadStr hkeys hstop hfuel]
    simp only [Option.map_some, printed, List.append_assoc]
  have hbegins : stringIn (lineOf keys) <+: lineOf keys := List.takeWhile_prefix _
  have hlength : (stringIn (lineOf keys)).length < fuel :=
    (hbegins.length_le.trans length_lineOf_le).trans_lt hmax
  have hsize : Input.maxLen < commandContextSize := by decide
  have hend : commandContext + (lineOf keys).length < 2 ^ 64 :=
    (Nat.add_lt_add_left (length_lineOf_le.trans_lt hsize) _).trans hplaced.within
  have hstring := cString_stringIn hline hend
  have hcleared : fill after commandContext commandContextSize 0 =
      fill memory commandContext commandContextSize 0 := by
    funext x
    by_cases hx : commandContext ≤ x ∧ x < commandContext + commandContextSize
    · rw [fill_of_inside hx.1 hx.2, fill_of_inside hx.1 hx.2]
    · rw [fill_of_outside (by omega), fill_of_outside (by omega), hkept x (by omega)]
  have hprompt : Printable ">" := by decide
  have hnewline : Printable "\r\n" := by decide
  rw [turn, run_bind_of_eq (run_prints hprompt _), run_bind_of_eq hread, run_bind,
    run_kshell hstring hlength (hplaced.congr hkept), hcleared, commandTurn]
  cases run execShell (Kernel.kshell hhdmOffset (stringIn (lineOf keys)))
    (printed shell (textBytes ">" ++ Serial.Input.echoFrom [] keys ++ [13, 10])) with
  | none => rfl
  | some result =>
    rw [Option.map_some, Option.map_some, Option.bind_some, run_prints hnewline]
    rfl

/-- The commands of some lines, one after another. -/
def session (hhdmOffset : ℕ) : List (List UInt8) → ShellState → Option ShellState
  | [], shell => some shell
  | keys :: lines, shell => (commandTurn hhdmOffset keys shell).bind (session hhdmOffset lines)

/-- The bytes of `CommandContext` are zero. -/
def Cleared (memory : Memory) (commandContext : ℕ) : Prop :=
  fill memory commandContext commandContextSize 0 = memory

/-- For every sequence of lines, as many turns of the console are the commands typed, one after
another.  They take the bytes of the lines and no more, and leave the kernel's memory as it was:
`CommandContext` cleared and everything else untouched. -/
theorem console_session (hplaced : Placed memory hhdmOffset commandContext nameAt)
    (hcleared : Cleared memory commandContext) {lines : List (List UInt8 × UInt8)}
    (hlines : ∀ entry ∈ lines, (∀ key ∈ entry.1, ¬ Serial.Input.Ends key) ∧
      Serial.Input.Ends entry.2 ∧ entry.1.length < fuel)
    (hmax : Input.maxLen < fuel) (shell : ShellState) :
    run execConsole (turns hhdmOffset commandContext nameAt fuel lines.length)
        ⟨shell, memory, (lines.flatMap fun entry ↦ entry.1 ++ [entry.2]) ++ rest⟩ =
      (session hhdmOffset (lines.map Prod.fst) shell).map fun next ↦
        ((), ⟨next, memory, rest⟩) := by
  induction lines generalizing shell with
  | nil => rfl
  | cons entry lines ih =>
    obtain ⟨⟨hkeys, hstop, hfuel⟩, hlines⟩ := List.forall_mem_cons.mp hlines
    have hbytes : ((entry :: lines).flatMap fun entry ↦ entry.1 ++ [entry.2]) ++ rest =
        entry.1 ++ entry.2 :: ((lines.flatMap fun entry ↦ entry.1 ++ [entry.2]) ++ rest) := by
      rw [List.flatMap_cons, List.append_assoc, List.append_assoc, List.singleton_append]
    rw [hbytes, List.length_cons, turns, run_bind, run_turn hplaced hkeys hstop hfuel hmax,
      hcleared, List.map_cons, session]
    cases commandTurn hhdmOffset entry.1 shell with
    | none => rfl
    | some next => exact ih hlines next

end Console

/-- Where the literals are: sixteen bytes for each, behind `CommandContext`. -/
def namedAt (name : String) : ℕ := 256 + 16 * ((commands 0).map Prod.fst).idxOf name

/-- A cleared `CommandContext` and the literals. -/
def named (x : ℕ) : UInt8 :=
  if x < 256 then 0
  else (textBytes (((commands 0).map Prod.fst).getD ((x - 256) / 16) "")).getD ((x - 256) % 16) 0

theorem placed_named : Placed named 0 0 namedAt := by
  have hcases : ∀ entry ∈ commands 0, Strings.CString named (namedAt entry.1) (textBytes entry.1) ∧
      256 ≤ namedAt entry.1 := by
    intro entry hentry
    simp only [commands, List.mem_cons, List.not_mem_nil, or_false] at hentry
    rcases hentry with rfl | rfl | rfl | rfl | rfl | rfl | rfl | rfl | rfl | rfl | rfl <;>
      exact ⟨⟨by decide, by decide, by decide, by decide⟩, by decide⟩
  exact ⟨by decide, fun entry hentry ↦ (hcases entry hentry).1,
    fun entry hentry ↦ .inr (hcases entry hentry).2⟩

theorem cleared_named : Cleared named 0 := by
  funext x
  by_cases hx : x < 256
  · rw [fill_of_inside (Nat.zero_le x) (by simpa using hx), named, if_pos hx]
  · rw [fill_of_outside (by simp only [commandContextSize]; omega)]

/-- One line, and a byte behind it. -/
theorem console_session_ping :
    run execConsole (turns 0 0 namedAt 256 1)
        ⟨(startShell 1).state, named, [112, 105, 110, 103, 13] ++ [102]⟩ =
      (session 0 [[112, 105, 110, 103]] (startShell 1).state).map fun next ↦
        ((), ⟨next, named, [102]⟩) := by
  have hlimit : Input.maxLen < 256 := by norm_num
  refine @console_session named 0 0 256 namedAt [102] placed_named cleared_named
    [([112, 105, 110, 103], 13)] ?_ hlimit (startShell 1).state
  rw [List.forall_mem_singleton]
  exact ⟨by simp, by decide, by norm_num⟩

end SideHOS.Shell.Console
