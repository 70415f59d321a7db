import SideHOS.Kernel.Shell
import SideHOS.Serial.Output

/-!
# What a command of the shell does

Six commands change something besides what is printed: `malloc`, `frame`, `frames`, `free`,
`freeframe` and `freeframes`.  Each makes one call of the allocator and keeps its answer.  The
other lines leave the allocator, `frame` and `PointerStore` alone.
-/

namespace SideHOS.Shell

open Kernel Machine.Word64 Sharing Sharing.Program Serial

variable {hhdmOffset : ℕ} {state after : ShellState} {line : List UInt8}

/-! ## Calls and prints inside a command -/

def allocatorPart : Part exec execShell ShellAccess.memory where
  get := ShellState.allocator
  put allocator state := { state with allocator := allocator }
  get_put _ _ := rfl
  put_put _ _ _ := rfl
  put_get _ := rfl
  exec_eq _ _ := rfl

theorem run_memory {α : Type} (code : Code α) (state : ShellState) :
    run execShell (memory code) state = (run exec code state.allocator).map fun result ↦
      (result.1, { state with allocator := result.2 }) :=
  allocatorPart.run_embed code state

/-- A call of the allocator with a known answer, and then the rest of the command. -/
theorem run_memory_bind {α β : Type} {code : Code α} {value : α} {allocator : AllocatorState}
    (hrun : run exec code state.allocator = some (value, allocator))
    (next : α → ShellCode β) :
    run execShell (memory code >>= next) state =
      run execShell (next value) { state with allocator := allocator } := by
  apply run_bind_of_eq
  rw [run_memory, hrun]
  rfl

/-- A call of the allocator that does not end. -/
theorem run_memory_none {α β : Type} {code : Code α} (hrun : run exec code state.allocator = none)
    (next : α → ShellCode β) : run execShell (memory code >>= next) state = none := by
  rw [run_bind, run_memory, hrun]
  rfl

theorem run_writeAll (bytes : List UInt8) (state : ShellState) :
    run execShell (print (writeAll bytes)) state =
      some ((), { state with output := state.output ++ bytes }) := by
  induction bytes generalizing state with
  | nil =>
    rw [List.append_nil]
    rfl
  | cons byte bytes ih =>
    have hbyte := ih { state with output := state.output ++ [byte] }
    rw [List.append_assoc, List.singleton_append] at hbyte
    exact hbyte

/-- A string that `kputs` prints in full. -/
abbrev Printable (text : String) : Prop :=
  (textBytes text).length < 128 ∧ (0 : UInt8) ∉ textBytes text

theorem run_putText {text : String} (h : Printable text) (state : ShellState) :
    run execShell (putText text) state =
      some ((), { state with output := state.output ++ textBytes text }) := by
  rw [putText, kputs_literal text h.1 h.2]
  exact run_writeAll _ state

theorem run_putText_bind {α : Type} {text : String} (h : Printable text) (state : ShellState)
    (next : Unit → ShellCode α) :
    run execShell (putText text >>= next) state =
      run execShell (next ()) { state with output := state.output ++ textBytes text } :=
  run_bind_of_eq (run_putText h state)

theorem run_putHex_bind {α : Type} (value : ℕ) (state : ShellState)
    (next : Unit → ShellCode α) :
    run execShell (putHex value >>= next) state =
      run execShell (next ()) { state with output := state.output ++ hexBytes value } := by
  apply run_bind_of_eq
  rw [putHex, kputhex_eq]
  exact run_writeAll _ state

/-! ## The pointer stack -/

/-- The stack after `pointer_push`. -/
def pushed (store : PointerList) (pointer : ℕ) : PointerList :=
  if store.cursor = 255 then store
  else
    { entries := Function.update store.entries store.cursor pointer
      cursor := (store.cursor + 1) % 256 }

theorem run_pointerPush_bind {α : Type} (pointer : ℕ) (state : ShellState)
    (next : Bool → ShellCode α) :
    run execShell (pointerPush pointer >>= next) state =
      run execShell (next (decide (state.pointerStore.cursor ≠ 255)))
        { state with pointerStore := pushed state.pointerStore pointer } := by
  apply run_bind_of_eq
  rw [pointerPush, run_loadPointerCursor]
  by_cases hfull : state.pointerStore.cursor = 255
  · rw [if_pos hfull, pushed, if_pos hfull, hfull]
    rfl
  · rw [if_neg hfull, pushed, if_neg hfull, decide_eq_true hfull]
    rfl

/-- What `pointer_pop` answers. -/
def top (store : PointerList) : ℕ :=
  if store.cursor = 0 then 0 else store.entries ((store.cursor - 1) % 256)

/-- The stack after `pointer_pop`. -/
def popped (store : PointerList) : PointerList :=
  if store.cursor = 0 then store else { store with cursor := (store.cursor - 1) % 256 }

theorem run_pointerPop_bind {α : Type} (state : ShellState) (next : ℕ → ShellCode α) :
    run execShell (pointerPop >>= next) state =
      run execShell (next (top state.pointerStore))
        { state with pointerStore := popped state.pointerStore } := by
  apply run_bind_of_eq
  rw [pointerPop, run_loadPointerCursor]
  by_cases hempty : state.pointerStore.cursor = 0
  · rw [if_pos hempty, top, popped, if_pos hempty, if_pos hempty]
    rfl
  · rw [if_neg hempty, top, popped, if_neg hempty, if_neg hempty]
    rfl

/-! ## The commands that allocate and free -/

/-- What `malloc` does with the answer of `kmalloc`. -/
def stored (store : PointerList) (addr : ℕ) : PointerList :=
  if addr = 0 then store else pushed store addr

theorem run_mallocCommand {addr : ℕ} {allocator : AllocatorState}
    (hcall : run exec (kmalloc hhdmOffset 5000) state.allocator = some (addr, allocator)) :
    ∃ output, run execShell (mallocCommand hhdmOffset) state =
      some ((), ⟨allocator, state.frame, stored state.pointerStore addr, output⟩) := by
  rw [mallocCommand, run_memory_bind hcall, run_putText_bind (by decide), run_putHex_bind,
    run_putText_bind (by decide), run_putHex_bind, run_putText_bind (by decide), stored]
  by_cases haddr : addr = 0
  · rw [if_neg (not_not.mpr haddr), if_pos haddr, run_putText (by decide)]
    exact ⟨_, rfl⟩
  · rw [if_pos haddr, if_neg haddr, run_pointerPush_bind]
    by_cases hfull : state.pointerStore.cursor = 255
    · simp only [hfull, ne_eq, not_true_eq_false, decide_false, if_true]
      rw [run_putText (by decide)]
      exact ⟨_, rfl⟩
    · simp only [hfull, ne_eq, not_false_eq_true, decide_true, Bool.true_eq_false, if_false]
      rw [run_putText (by decide)]
      exact ⟨_, rfl⟩

theorem run_frameCommand {allocate : Code ℕ} {answer : ℕ} {allocator : AllocatorState}
    (hcall : run exec allocate state.allocator = some (answer, allocator)) :
    ∃ output, run execShell (frameCommand allocate) state =
      some ((), ⟨allocator, answer, state.pointerStore, output⟩) := by
  rw [frameCommand, run_memory_bind hcall, run_storeFrame, run_loadFrame, run_putHex_bind,
    run_putText (by decide)]
  exact ⟨_, rfl⟩

theorem run_freeCommand {ok : Bool} {allocator : AllocatorState}
    (htop : top state.pointerStore ≠ 0)
    (hcall : run exec (kfree hhdmOffset (top state.pointerStore)) state.allocator =
      some (ok, allocator)) :
    ∃ output, run execShell (freeCommand hhdmOffset) state =
      some ((), ⟨allocator, state.frame, popped state.pointerStore, output⟩) := by
  have hcalled : run exec (kfree hhdmOffset (top state.pointerStore))
      ({ state with pointerStore := popped state.pointerStore } : ShellState).allocator =
        some (ok, allocator) := hcall
  rw [freeCommand, run_pointerPop_bind, if_neg htop, run_memory_bind hcalled,
    run_putText_bind (by decide), run_putHex_bind, run_putText (by cases ok <;> decide)]
  exact ⟨_, rfl⟩

theorem run_freeCommand_nothing (htop : top state.pointerStore = 0) :
    ∃ output, run execShell (freeCommand hhdmOffset) state =
      some ((), ⟨state.allocator, state.frame, popped state.pointerStore, output⟩) := by
  rw [freeCommand, run_pointerPop_bind, if_pos htop, run_putText (by decide)]
  exact ⟨_, rfl⟩

theorem run_freeframeCommand {free : ℕ → Code Bool} {ok : Bool} {allocator : AllocatorState}
    (hcall : run exec (free state.frame) state.allocator = some (ok, allocator)) :
    ∃ output, run execShell (freeframeCommand free) state =
      some ((), ⟨allocator, state.frame, state.pointerStore, output⟩) := by
  rw [freeframeCommand, run_loadFrame, run_memory_bind hcall, run_loadFrame, run_putHex_bind,
    run_putText_bind (by decide)]
  cases ok
  · rw [if_neg Bool.false_ne_true, run_putText (by decide)]
    exact ⟨_, rfl⟩
  · rw [if_pos rfl, run_putText (by decide)]
    exact ⟨_, rfl⟩

/-! ## The commands that only print -/

/-- The allocator, `frame` and `PointerStore` are as before. -/
structure Kept (state after : ShellState) : Prop where
  allocator : after.allocator = state.allocator
  frame : after.frame = state.frame
  pointerStore : after.pointerStore = state.pointerStore

/-- An access that keeps the allocator, `frame` and `PointerStore`. -/
def Reads (operation : ShellAccess) : Prop := ∀ state, Kept state (execShell operation state).2

/-- A program that keeps the allocator, `frame` and `PointerStore`. -/
abbrev ReadsOnly {α : Type} (program : ShellCode α) : Prop :=
  Uses (fun _ _ ↦ True) Reads program

theorem ReadsOnly.kept {α : Type} {program : ShellCode α} {value : α}
    (h : ReadsOnly program) (hrun : run execShell program state = some (value, after)) :
    Kept state after := by
  refine Uses.run_holds h (fun operation hreads middle hmiddle ↦ ?_) ⟨rfl, rfl, rfl⟩ hrun
  have hnext := hreads middle
  exact ⟨hnext.allocator.trans hmiddle.allocator, hnext.frame.trans hmiddle.frame,
    hnext.pointerStore.trans hmiddle.pointerStore⟩

theorem readsOnly_putText (text : String) : ReadsOnly (putText text) :=
  uses_embed (fun _ _ ↦ ⟨rfl, rfl, rfl⟩) _

section Binds

variable {α : Type}

theorem readsOnly_text_bind {text : String} {next : Unit → ShellCode α}
    (hnext : ReadsOnly (next ())) : ReadsOnly (putText text >>= next) :=
  uses_bind (readsOnly_putText text) fun _ ↦ hnext

theorem readsOnly_hex_bind {value : ℕ} {next : Unit → ShellCode α}
    (hnext : ReadsOnly (next ())) : ReadsOnly (putHex value >>= next) :=
  uses_bind (uses_embed (fun _ _ ↦ ⟨rfl, rfl, rfl⟩) _) fun _ ↦ hnext

theorem readsOnly_load_bind {address : ℕ} {next : ℕ → ShellCode α}
    (hnext : ∀ value, ReadsOnly (next value)) :
    ReadsOnly (memory (perform (.load address)) >>= next) :=
  uses_bind (uses_perform fun _ ↦ ⟨rfl, rfl, rfl⟩) hnext

theorem readsOnly_diverge : ReadsOnly (.diverge : ShellCode α) := trivial

end Binds

section Printing

attribute [local irreducible] Uses

theorem readsOnly_freelistFrom (fuel i : ℕ) : ReadsOnly (freelistFrom fuel i) := by
  induction fuel generalizing i with
  | zero => exact readsOnly_diverge
  | succ fuel ih =>
    apply uses_bind (uses_perform fun _ ↦ ⟨rfl, rfl, rfl⟩)
    intro cursor
    apply uses_ite _ fun _ ↦ uses_pure ()
    intro _
    apply readsOnly_text_bind
    apply readsOnly_hex_bind
    apply readsOnly_text_bind
    apply uses_bind (uses_perform fun _ ↦ ⟨rfl, rfl, rfl⟩)
    intro base
    apply readsOnly_hex_bind
    apply readsOnly_text_bind
    apply uses_bind (uses_perform fun _ ↦ ⟨rfl, rfl, rfl⟩)
    intro length
    apply readsOnly_hex_bind
    apply readsOnly_text_bind
    exact ih (i + 1)

theorem readsOnly_dumpNodes (fuel node nodeIndex : ℕ) :
    ReadsOnly (dumpNodes fuel node nodeIndex) := by
  induction fuel generalizing node nodeIndex with
  | zero => exact readsOnly_diverge
  | succ fuel ih =>
    apply uses_ite fun _ ↦ uses_pure ()
    intro _
    apply readsOnly_text_bind
    apply readsOnly_hex_bind
    apply readsOnly_text_bind
    apply readsOnly_load_bind
    intro length
    apply readsOnly_hex_bind
    apply readsOnly_text_bind
    apply readsOnly_load_bind
    intro next
    apply readsOnly_hex_bind
    apply readsOnly_text_bind
    apply readsOnly_load_bind
    intro next
    exact ih next _

theorem readsOnly_dumpPages (fuel page pageIndex : ℕ) :
    ReadsOnly (dumpPages fuel page pageIndex) := by
  induction fuel generalizing page pageIndex with
  | zero => exact readsOnly_diverge
  | succ fuel ih =>
    apply uses_ite fun _ ↦ uses_pure ()
    intro _
    apply readsOnly_text_bind
    apply readsOnly_hex_bind
    apply readsOnly_text_bind
    apply readsOnly_hex_bind
    apply readsOnly_text_bind
    apply readsOnly_load_bind
    intro largest
    apply readsOnly_hex_bind
    apply readsOnly_text_bind
    apply readsOnly_load_bind
    intro node
    apply uses_bind (readsOnly_dumpNodes _ _ _)
    intro _
    apply readsOnly_load_bind
    intro next
    exact ih next _

theorem readsOnly_freelistCommand : ReadsOnly freelistCommand := by
  apply readsOnly_text_bind
  apply uses_bind (uses_perform fun _ ↦ ⟨rfl, rfl, rfl⟩)
  intro cursor
  apply readsOnly_hex_bind
  apply readsOnly_text_bind
  exact readsOnly_freelistFrom 256 0

theorem readsOnly_heapdumpCommand : ReadsOnly heapdumpCommand := by
  apply uses_bind (uses_perform fun _ ↦ ⟨rfl, rfl, rfl⟩)
  intro page
  apply uses_bind
  · exact uses_ite (fun _ ↦ readsOnly_putText _) fun _ ↦ uses_pure ()
  · exact fun _ ↦ readsOnly_dumpPages walkFuel page 0

end Printing

theorem kshell_malloc : kshell hhdmOffset (textBytes "malloc") = mallocCommand hhdmOffset := by
  rw [kshell, if_neg (by decide), if_neg (by decide), if_pos rfl]

theorem kshell_frame : kshell hhdmOffset (textBytes "frame") =
    frameCommand (memoryAllocateFrame hhdmOffset) := by
  rw [kshell, if_neg (by decide), if_neg (by decide), if_neg (by decide), if_pos rfl]

theorem kshell_frames : kshell hhdmOffset (textBytes "frames") =
    frameCommand (memoryAllocateFrames hhdmOffset 5) := by
  rw [kshell, if_neg (by decide), if_neg (by decide), if_neg (by decide), if_neg (by decide),
    if_pos rfl]

theorem kshell_free : kshell hhdmOffset (textBytes "free") = freeCommand hhdmOffset := by
  rw [kshell, if_neg (by decide), if_neg (by decide), if_neg (by decide), if_neg (by decide),
    if_neg (by decide), if_pos rfl]

theorem kshell_freeframe : kshell hhdmOffset (textBytes "freeframe") =
    freeframeCommand memoryFreeFrame := by
  rw [kshell, if_neg (by decide), if_neg (by decide), if_neg (by decide), if_neg (by decide),
    if_neg (by decide), if_neg (by decide), if_pos rfl]

theorem kshell_freeframes : kshell hhdmOffset (textBytes "freeframes") =
    freeframeCommand fun frame ↦ memoryFreeFrames frame 5 := by
  rw [kshell, if_neg (by decide), if_neg (by decide), if_neg (by decide), if_neg (by decide),
    if_neg (by decide), if_neg (by decide), if_neg (by decide), if_pos rfl]

/-- The other lines only print. -/
theorem readsOnly_kshell
    (hline : ∀ name ∈ ["malloc", "frame", "frames", "free", "freeframe", "freeframes"],
      line ≠ textBytes name) : ReadsOnly (kshell hhdmOffset line) := by
  simp only [List.forall_mem_cons] at hline
  obtain ⟨hmalloc, hframe, hframes, hfree, hfreeframe, hfreeframes, -⟩ := hline
  apply uses_ite fun _ ↦ readsOnly_putText _
  intro _
  apply uses_ite fun _ ↦ readsOnly_putText _
  intro _
  rw [if_neg hmalloc, if_neg hframe, if_neg hframes, if_neg hfree, if_neg hfreeframe,
    if_neg hfreeframes]
  apply uses_ite fun _ ↦ readsOnly_freelistCommand
  intro _
  apply uses_ite
  · intro _
    apply readsOnly_text_bind
    apply readsOnly_hex_bind
    exact readsOnly_putText _
  · intro _
    exact uses_ite (fun _ ↦ readsOnly_heapdumpCommand) fun _ ↦ readsOnly_putText _

/-- A command that ends has got the answer of its call. -/
theorem exists_of_memory_bind {α β : Type} {code : Code α} {next : α → ShellCode β} {value : β}
    (hrun : run execShell (memory code >>= next) state = some (value, after)) :
    ∃ answer allocator, run exec code state.allocator = some (answer, allocator) := by
  cases hcall : run exec code state.allocator with
  | none =>
    rw [run_memory_none hcall] at hrun
    cases hrun
  | some result => exact ⟨result.1, result.2, rfl⟩

theorem malloc_effect
    (hrun : run execShell (kshell hhdmOffset (textBytes "malloc")) state = some ((), after)) :
    ∃ addr, run exec (kmalloc hhdmOffset 5000) state.allocator = some (addr, after.allocator) ∧
      after.frame = state.frame ∧ after.pointerStore = stored state.pointerStore addr := by
  rw [kshell_malloc] at hrun
  obtain ⟨addr, allocator, hcall⟩ := exists_of_memory_bind hrun
  obtain ⟨output, hend⟩ := run_mallocCommand hcall
  obtain rfl := (Prod.mk.inj (Option.some.inj (hend.symm.trans hrun))).2
  exact ⟨addr, hcall, rfl, rfl⟩

theorem free_effect
    (hrun : run execShell (kshell hhdmOffset (textBytes "free")) state = some ((), after)) :
    after.frame = state.frame ∧ after.pointerStore = popped state.pointerStore ∧
      (top state.pointerStore = 0 → after.allocator = state.allocator) ∧
      (top state.pointerStore ≠ 0 → ∃ ok,
        run exec (kfree hhdmOffset (top state.pointerStore)) state.allocator =
          some (ok, after.allocator)) := by
  rw [kshell_free] at hrun
  by_cases htop : top state.pointerStore = 0
  · obtain ⟨output, hend⟩ := run_freeCommand_nothing htop
    obtain rfl := (Prod.mk.inj (Option.some.inj (hend.symm.trans hrun))).2
    exact ⟨rfl, rfl, fun _ ↦ rfl, fun hne ↦ absurd htop hne⟩
  · have hcalled := hrun
    rw [freeCommand, run_pointerPop_bind, if_neg htop] at hcalled
    obtain ⟨ok, allocator, hcall⟩ := exists_of_memory_bind hcalled
    obtain ⟨output, hend⟩ := run_freeCommand htop hcall
    obtain rfl := (Prod.mk.inj (Option.some.inj (hend.symm.trans hrun))).2
    exact ⟨rfl, rfl, fun hzero ↦ absurd hzero htop, fun _ ↦ ⟨ok, hcall⟩⟩

theorem frameCommand_effect {allocate : Code ℕ}
    (hrun : run execShell (frameCommand allocate) state = some ((), after)) :
    run exec allocate state.allocator = some (after.frame, after.allocator) ∧
      after.pointerStore = state.pointerStore := by
  obtain ⟨answer, allocator, hcall⟩ := exists_of_memory_bind hrun
  obtain ⟨output, hend⟩ := run_frameCommand hcall
  obtain rfl := (Prod.mk.inj (Option.some.inj (hend.symm.trans hrun))).2
  exact ⟨hcall, rfl⟩

theorem freeframeCommand_effect {free : ℕ → Code Bool}
    (hrun : run execShell (freeframeCommand free) state = some ((), after)) :
    ∃ ok, run exec (free state.frame) state.allocator = some (ok, after.allocator) ∧
      after.frame = state.frame ∧ after.pointerStore = state.pointerStore := by
  have hcalled := hrun
  rw [freeframeCommand, run_loadFrame] at hcalled
  obtain ⟨ok, allocator, hcall⟩ := exists_of_memory_bind hcalled
  obtain ⟨output, hend⟩ := run_freeframeCommand hcall
  obtain rfl := (Prod.mk.inj (Option.some.inj (hend.symm.trans hrun))).2
  exact ⟨ok, hcall, rfl, rfl⟩

end SideHOS.Shell
