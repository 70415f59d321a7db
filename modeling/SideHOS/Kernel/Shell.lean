import SideHOS.Kernel.Serial
import SideHOS.Sharing.Embedding

/-!
# The shell

`kshell` with its commands, `PointerStore` with `pointer_push` and `pointer_pop`, and the variable
`frame`.  A command line is the string in `CommandContext.command`, which `strcmp` compares with
the name of a command; the last statement of `kshell` clears it for the next line.
-/

namespace SideHOS.Kernel

open Machine.Word64 Sharing Sharing.Program

@[ext]
structure PointerList where
  entries : ℕ → ℕ
  cursor : ℕ

/-- The allocator, `frame`, `PointerStore`, and the bytes printed so far. -/
@[ext]
structure ShellState where
  allocator : AllocatorState
  frame : ℕ
  pointerStore : PointerList
  output : List UInt8

/-- An access of the allocator or to the serial port, a load or a store. -/
inductive ShellAccess where
  | memory (operation : Access)
  | serial (operation : SerialAccess)
  | loadFrame
  | storeFrame (value : ℕ)
  | loadPointerCursor
  | storePointerCursor (value : ℕ)
  | loadEntry (index : ℕ)
  | storeEntry (index value : ℕ)

def execShell : ShellAccess → ShellState → ℕ × ShellState
  | .memory operation, state =>
      ((exec operation state.allocator).1,
        { state with allocator := (exec operation state.allocator).2 })
  | .serial operation, state => (0, { state with output := state.output ++ operation.bytes })
  | .loadFrame, state => (state.frame, state)
  | .storeFrame value, state => (0, { state with frame := value })
  | .loadPointerCursor, state => (state.pointerStore.cursor, state)
  | .storePointerCursor value, state => (0, { state with pointerStore.cursor := value % 256 })
  | .loadEntry index, state => (state.pointerStore.entries index, state)
  | .storeEntry index value, state =>
      (0, { state with
        pointerStore.entries := Function.update state.pointerStore.entries index value })

abbrev ShellCode (α : Type) := Program ShellAccess α

def memory {α : Type} (code : Code α) : ShellCode α := embed .memory code

def print (code : SerialCode Unit) : ShellCode Unit := embed .serial code

/-- `kputs` of a literal. -/
def putText (text : String) : ShellCode Unit := print (kputs (literal text))

/-- `kputhex`. -/
def putHex (value : ℕ) : ShellCode Unit := print (kputhex value)

def pointerPush (pointer : ℕ) : ShellCode Bool := do
  let cursor ← perform .loadPointerCursor
  if cursor = 255 then pure false
  else do
    let cursor ← perform .loadPointerCursor
    let _ ← perform (.storePointerCursor (cursor + 1))
    let _ ← perform (.storeEntry cursor pointer)
    pure true

def pointerPop : ShellCode ℕ := do
  let cursor ← perform .loadPointerCursor
  if cursor = 0 then pure 0
  else do
    let cursor ← perform .loadPointerCursor
    let _ ← perform (.storePointerCursor (cursor - 1))
    let cursor ← perform .loadPointerCursor
    perform (.loadEntry cursor)

def mallocCommand (hhdmOffset : ℕ) : ShellCode Unit := do
  let size := 5000
  let addr ← memory (kmalloc hhdmOffset size)
  putText "malloc size="
  putHex size
  putText " addr="
  putHex addr
  putText "\r\n"
  if addr ≠ 0 then do
    let pushed ← pointerPush addr
    if pushed = false then putText "pointer list full\r\n" else putText "malloc success\r\n"
  else putText "malloc failed\r\n"

/-- `frame` and `frames`, with the call that allocates. -/
def frameCommand (allocate : Code ℕ) : ShellCode Unit := do
  let answer ← memory allocate
  let _ ← perform (.storeFrame answer)
  let frame ← perform .loadFrame
  putHex frame
  putText "\r\n"

def freeCommand (hhdmOffset : ℕ) : ShellCode Unit := do
  let addr ← pointerPop
  if addr = 0 then putText "no alloc to free\r\n"
  else do
    let status ← memory (kfree hhdmOffset addr)
    putText "free addr="
    putHex addr
    putText (if status then " ok\r\n" else " fail\r\n")

/-- `freeframe` and `freeframes`, with the call that frees. -/
def freeframeCommand (free : ℕ → Code Bool) : ShellCode Unit := do
  let frame ← perform .loadFrame
  let status ← memory (free frame)
  let frame ← perform .loadFrame
  putHex frame
  putText "\n"
  if status then putText "freed\n" else putText "error\n"

/-- `for (int i = 0; i < *cursor; i++)` of `freelist`, from `i` on. -/
def freelistFrom : ℕ → ℕ → ShellCode Unit
  | 0, _ => .diverge
  | fuel + 1, i => do
    let cursor ← memory (perform .loadCursor)
    if i < cursor then do
      putText "seg "
      putHex i
      putText " base="
      let base ← memory (perform (.loadBase i))
      putHex base
      putText " len="
      let length ← memory (perform (.loadLength i))
      putHex length
      putText "\r\n"
      freelistFrom fuel (i + 1)
    else pure ()

def freelistCommand : ShellCode Unit := do
  putText "cursor="
  let cursor ← memory (perform .loadCursor)
  putHex cursor
  putText "\r\n"
  freelistFrom 256 0

/-- `while (node)` of `heapdump`. -/
def dumpNodes : ℕ → ℕ → ℕ → ShellCode Unit
  | 0, _, _ => .diverge
  | fuel + 1, node, nodeIndex =>
    if node = 0 then pure ()
    else do
      putText "  node "
      putHex nodeIndex
      putText " len="
      let length ← memory (loadNodeLength node)
      putHex length
      putText " next="
      let next ← memory (loadNodeNext node)
      putHex next
      putText "\r\n"
      let next ← memory (loadNodeNext node)
      dumpNodes fuel next (add nodeIndex 1)

/-- `while (page)` of `heapdump`. -/
def dumpPages : ℕ → ℕ → ℕ → ShellCode Unit
  | 0, _, _ => .diverge
  | fuel + 1, page, pageIndex =>
    if page = 0 then pure ()
    else do
      putText "page "
      putHex pageIndex
      putText " base="
      putHex page
      putText " largest="
      let largest ← memory (loadPageLargest page)
      putHex largest
      putText "\r\n"
      let node ← memory (loadPageFreelist page)
      dumpNodes walkFuel node 0
      let next ← memory (loadPageNext page)
      dumpPages fuel next (add pageIndex 1)

def heapdumpCommand : ShellCode Unit := do
  let page ← memory (perform .loadHeapPages)
  let _ ← (if page = 0 then putText "no heap pages\r\n" else pure ())
  dumpPages walkFuel page 0

def kshell (hhdmOffset : ℕ) (command : List UInt8) : ShellCode Unit :=
  if command = textBytes "ping" then putText "pong"
  else if command = textBytes "sse" then putText "SSE\r\n"
  else if command = textBytes "malloc" then mallocCommand hhdmOffset
  else if command = textBytes "frame" then frameCommand (memoryAllocateFrame hhdmOffset)
  else if command = textBytes "frames" then frameCommand (memoryAllocateFrames hhdmOffset 5)
  else if command = textBytes "free" then freeCommand hhdmOffset
  else if command = textBytes "freeframe" then freeframeCommand memoryFreeFrame
  else if command = textBytes "freeframes" then
    freeframeCommand fun frame ↦ memoryFreeFrames frame 5
  else if command = textBytes "freelist" then freelistCommand
  else if command = textBytes "hhdm" then do
    putText "hhdm="
    putHex hhdmOffset
    putText "\r\n"
  else if command = textBytes "heapdump" then heapdumpCommand
  else putText "Invalid command"

section Access

variable {α : Type} (state : ShellState) (value : ℕ) (next : ℕ → ShellCode α)

@[simp]
theorem run_loadFrame : run execShell (perform .loadFrame >>= next) state =
    run execShell (next state.frame) state := rfl

@[simp]
theorem run_storeFrame : run execShell (perform (.storeFrame value) >>= next) state =
    run execShell (next 0) { state with frame := value } := rfl

@[simp]
theorem run_loadPointerCursor : run execShell (perform .loadPointerCursor >>= next) state =
    run execShell (next state.pointerStore.cursor) state := rfl

end Access

end SideHOS.Kernel
