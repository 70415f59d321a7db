import SideHOS.Frames.Retention
import SideHOS.Heap.Callers
import SideHOS.Shell.Commands

/-!
# Histories of the shell

Command lines one after another, with what they have obtained and not given back: the frames of
`frame` and `frames` commands, and the blocks of `malloc` commands.
-/

namespace SideHOS.Shell

open Kernel Machine Sharing Sharing.Program Serial

/-- The shell, the frames that `frame` and `frames` commands obtained and no command released, how
many frames the last of these commands obtained if nothing was released since, and the blocks that
`malloc` commands obtained and that were not passed to `kfree`, in order. -/
structure ShellConfig where
  state : ShellState
  obtained : Multiset ℕ
  unreleased : Option ℕ
  blocks : List ℕ

/-- A command line, and the frames that its call of `memory_free_frame` or `memory_free_frames`
released. -/
structure ShellEvent where
  line : List UInt8
  released : Multiset ℕ

/-- The frames that a call of `memory_free_frame` or `memory_free_frames` released. -/
def releasedFrames (frame count : ℕ) (ok : Bool) : Multiset ℕ :=
  if ok then strided 4096 frame count else 0

/-- A `frame` or `frames` command has been answered. -/
def ShellConfig.obtain (config : ShellConfig) (after : ShellState) (count : ℕ) : ShellConfig :=
  { config with
    state := after
    obtained := config.obtained + if after.frame = 0 then 0 else strided 4096 after.frame count
    unreleased := if after.frame = 0 then none else some count }

/-- A `freeframe` or `freeframes` command has been answered. -/
def ShellConfig.release (config : ShellConfig) (after : ShellState) (count : ℕ) (ok : Bool) :
    ShellConfig :=
  { config with
    state := after
    obtained := config.obtained - releasedFrames config.state.frame count ok
    unreleased := if ok then none else config.unreleased }

inductive ShellStep (hhdmOffset : ℕ) : ShellConfig → ShellEvent → ShellConfig → Prop
  | malloc {config : ShellConfig} {after : ShellState} {addr : ℕ}
      (hrun : run execShell (kshell hhdmOffset (textBytes "malloc")) config.state =
        some ((), after))
      (hcall : run exec (kmalloc hhdmOffset 5000) config.state.allocator =
        some (addr, after.allocator)) :
      ShellStep hhdmOffset config ⟨textBytes "malloc", 0⟩
        { config with
          state := after
          blocks := if addr = 0 then config.blocks else config.blocks ++ [addr] }
  | frame {config : ShellConfig} {after : ShellState}
      (hrun : run execShell (kshell hhdmOffset (textBytes "frame")) config.state =
        some ((), after)) :
      ShellStep hhdmOffset config ⟨textBytes "frame", 0⟩ (config.obtain after 1)
  | frames {config : ShellConfig} {after : ShellState}
      (hrun : run execShell (kshell hhdmOffset (textBytes "frames")) config.state =
        some ((), after)) :
      ShellStep hhdmOffset config ⟨textBytes "frames", 0⟩ (config.obtain after 5)
  | free {config : ShellConfig} {after : ShellState}
      (hrun : run execShell (kshell hhdmOffset (textBytes "free")) config.state =
        some ((), after)) :
      ShellStep hhdmOffset config ⟨textBytes "free", 0⟩
        { config with
          state := after
          blocks := if top config.state.pointerStore = 0 then config.blocks
            else config.blocks.erase (top config.state.pointerStore) }
  | freeframe {config : ShellConfig} {after : ShellState} {ok : Bool}
      (hrun : run execShell (kshell hhdmOffset (textBytes "freeframe")) config.state =
        some ((), after))
      (hcall : run exec (memoryFreeFrame config.state.frame) config.state.allocator =
        some (ok, after.allocator)) :
      ShellStep hhdmOffset config
        ⟨textBytes "freeframe", releasedFrames config.state.frame 1 ok⟩ (config.release after 1 ok)
  | freeframes {config : ShellConfig} {after : ShellState} {ok : Bool}
      (hrun : run execShell (kshell hhdmOffset (textBytes "freeframes")) config.state =
        some ((), after))
      (hcall : run exec (memoryFreeFrames config.state.frame 5) config.state.allocator =
        some (ok, after.allocator)) :
      ShellStep hhdmOffset config
        ⟨textBytes "freeframes", releasedFrames config.state.frame 5 ok⟩
        (config.release after 5 ok)
  | other {config : ShellConfig} {line : List UInt8} {after : ShellState}
      (hline : ∀ name ∈ ["malloc", "frame", "frames", "free", "freeframe", "freeframes"],
        line ≠ textBytes name)
      (hrun : run execShell (kshell hhdmOffset line) config.state = some ((), after)) :
      ShellStep hhdmOffset config ⟨line, 0⟩ { config with state := after }

/-- The shell starts: a sound table of mapped frames, and nothing obtained. -/
structure ShellBooted (hhdmOffset : ℕ) (config : ShellConfig) : Prop where
  sound : Frames.Sound config.state.allocator.context.freelist
  offset_aligned : hhdmOffset % 4096 = 0
  end_le : ∀ frame ∈ Frames.free config.state.allocator.context.freelist,
    frame + hhdmOffset + 4096 ≤ 2 ^ 64
  frame_eq : config.state.frame = 0
  cursor_eq : config.state.pointerStore.cursor = 0
  obtained_eq : config.obtained = 0
  unreleased_eq : config.unreleased = none
  blocks_eq : config.blocks = []

def ShellBooted.mapping {hhdmOffset : ℕ} {config : ShellConfig}
    (h : ShellBooted hhdmOffset config) : Heap.Mapping where
  hhdmOffset := hhdmOffset
  frames := Frames.free config.state.allocator.context.freelist
  offset_aligned := h.offset_aligned
  nodup := h.sound.nodup
  frame_aligned _ hframe := (Frames.aligned_of_mem h.sound hframe).1
  frame_ne_zero _ hframe := (Frames.aligned_of_mem h.sound hframe).2.1
  end_le := h.end_le

/-- The shell with `count` usable frames in one segment. -/
def startShell (count : ℕ) : ShellConfig where
  state :=
    { allocator :=
        { bytes := fun _ ↦ 0
          context :=
            { freelist := { segments := fun _ ↦ ⟨4096, count⟩, cursor := 1 }, heapPages := 0 }
          memoryLock := 0 }
      frame := 0
      pointerStore := { entries := fun _ ↦ 0, cursor := 0 }
      output := [] }
  obtained := 0
  unreleased := none
  blocks := []

theorem sound_startShell {count : ℕ} (hcount : count ≤ 2 ^ 32) :
    Frames.Sound (startShell count).state.allocator.context.freelist where
  cursor_le := show 1 ≤ 255 by norm_num
  aligned _ _ _ := show 4096 % 4096 = 0 from rfl
  base_lt _ _ := show 4096 < 2 ^ 64 by norm_num
  end_le _ _ := show 4096 + 4096 * count ≤ 2 ^ 64 by omega
  disjoint first hfirst second hsecond hne := by
    have hone : (startShell count).state.allocator.context.freelist.cursor = 1 := rfl
    omega
  zero_not_mem hmem := by
    obtain ⟨index, -, hindex⟩ := Frames.mem_frames.mp hmem
    obtain ⟨k, -, hframe⟩ := Frames.mem_segmentFrames.mp hindex
    have hbase : 4096 + 4096 * k = 0 := hframe
    omega

theorem shellBooted_startShell {count : ℕ} (hcount : count ≤ 2 ^ 32) :
    ShellBooted 0 (startShell count) where
  sound := sound_startShell hcount
  offset_aligned := rfl
  end_le _ hframe := (Frames.aligned_of_mem (sound_startShell hcount) hframe).2.2
  frame_eq := rfl
  cursor_eq := rfl
  obtained_eq := rfl
  unreleased_eq := rfl
  blocks_eq := rfl

end SideHOS.Shell
