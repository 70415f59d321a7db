import SideHOS.Machine.ByteMemory
import SideHOS.Machine.Word64

/-!
# Straight-line x86-64 code

A core has sixteen general registers, the flags, the instruction pointer, the words of the segment
that `gs` points at, and memory.  Code is a list of instructions that ends with the instruction
leaving it, `ret` or an indirect jump; only that instruction sets the instruction pointer.

The code runs in the kernel, in 64-bit mode.  `popfq` loads the flags that the kernel may change
there and leaves the others at the values which they have in this mode.  An instruction that begins
with the trap flag set is followed by a debug exception; `run` is what the instructions do, and
`Interrupted` says whether such an exception comes in between or right behind.

Saving registers in the fields of a record, and loading them from there, are runs of the same
instruction over a list of fields.  Their effect is stated for any list: a run of stores writes
the registers into the fields and nothing else, and a run of loads reads them back.
-/

namespace SideHOS.Machine.X86

open ByteMemory

inductive Register where
  | rax | rbx | rcx | rdx | rsi | rdi | rbp | rsp
  | r8 | r9 | r10 | r11 | r12 | r13 | r14 | r15
  deriving DecidableEq

@[ext]
structure Core where
  reg : Register → ℕ
  rflags : ℕ
  rip : ℕ
  gs : ℕ → ℕ
  memory : Memory

/-- The flags that `popfq` changes: `CF`, `PF`, `AF`, `ZF`, `SF`, `TF`, `IF`, `DF`, `OF`, `IOPL`,
`NT`, `AC` and `ID`. -/
def flagMask : ℕ := 0x247fd5

/-- The flags after `popfq` of a word: bit 1 is always set, and `RF`, `VM`, `VIF`, `VIP` and the
reserved bits are clear. -/
def flagsOf (word : ℕ) : ℕ := word &&& flagMask ||| 2

/-- The registers are words, and the flags a value that they can have. -/
structure Core.Words (core : Core) : Prop where
  reg : ∀ r, core.reg r < 2 ^ 64
  rflags : flagsOf core.rflags = core.rflags

/-- Instructions, with the operands in the order in which the assembler takes them. -/
inductive Instruction where
  | mov (source target : Register)
  | load (offset : ℕ) (base target : Register)
  | store (source : Register) (offset : ℕ) (base : Register)
  | loadGs (offset : ℕ) (target : Register)
  | push (source : Register)
  | pushMemory (offset : ℕ) (base : Register)
  | pop (target : Register)
  | pushfq
  | popfq
  | jmp (target : Register)
  | ret

namespace Core

def setReg (core : Core) (target : Register) (value : ℕ) : Core :=
  { core with reg := Function.update core.reg target value }

def pushWord (core : Core) (value : ℕ) : Core :=
  { core with
    reg := Function.update core.reg .rsp (Word64.sub (core.reg .rsp) 8)
    memory := store64 core.memory (Word64.sub (core.reg .rsp) 8) value }

def top (core : Core) : ℕ := load64 core.memory (core.reg .rsp)

def drop (core : Core) : Core := core.setReg .rsp (Word64.add (core.reg .rsp) 8)

/-- `TF`. -/
def trapFlag (core : Core) : Bool := core.rflags.testBit 8

end Core

def exec : Instruction → Core → Core
  | .mov source target, core => core.setReg target (core.reg source)
  | .load offset base target, core =>
      core.setReg target (load64 core.memory (Word64.add (core.reg base) offset))
  | .store source offset base, core =>
      { core with
        memory := store64 core.memory (Word64.add (core.reg base) offset) (core.reg source) }
  | .loadGs offset target, core => core.setReg target (core.gs offset)
  | .push source, core => core.pushWord (core.reg source)
  | .pushMemory offset base, core =>
      core.pushWord (load64 core.memory (Word64.add (core.reg base) offset))
  | .pop target, core => core.drop.setReg target core.top
  | .pushfq, core => core.pushWord core.rflags
  | .popfq, core => { core.drop with rflags := flagsOf core.top }
  | .jmp target, core => { core with rip := core.reg target }
  | .ret, core => { core.drop with rip := core.top }

def run (code : List Instruction) (core : Core) : Core :=
  code.foldl (fun core instruction ↦ exec instruction core) core

/-- A debug exception follows one of the instructions. -/
def Interrupted : List Instruction → Core → Prop
  | [], _ => False
  | instruction :: code, core =>
      core.trapFlag = true ∨ Interrupted code (exec instruction core)

def call (returnAddress : ℕ) (code : List Instruction) (core : Core) : Core :=
  run code (core.pushWord returnAddress)

/-- The addresses of the words that an instruction pushes or pops. -/
def accessed : Instruction → Core → List ℕ
  | .push _, core => [Word64.sub (core.reg .rsp) 8]
  | .pushMemory _ _, core => [Word64.sub (core.reg .rsp) 8]
  | .pushfq, core => [Word64.sub (core.reg .rsp) 8]
  | .pop _, core => [core.reg .rsp]
  | .popfq, core => [core.reg .rsp]
  | .ret, core => [core.reg .rsp]
  | .mov _ _, _ => []
  | .load _ _ _, _ => []
  | .store _ _ _, _ => []
  | .loadGs _ _, _ => []
  | .jmp _, _ => []

/-- The addresses of the stack words that the instructions read or write, in order. -/
def stackWords : List Instruction → Core → List ℕ
  | [], _ => []
  | instruction :: code, core =>
      accessed instruction core ++ stackWords code (exec instruction core)

section Run

variable (core : Core) (first second : List Instruction) (instruction : Instruction)

@[simp]
theorem run_nil : run [] core = core := rfl

@[simp]
theorem run_cons : run (instruction :: second) core = run second (exec instruction core) := rfl

theorem run_append : run (first ++ second) core = run second (run first core) :=
  List.foldl_append

@[simp]
theorem stackWords_nil : stackWords [] core = [] := rfl

@[simp]
theorem stackWords_cons : stackWords (instruction :: second) core =
    accessed instruction core ++ stackWords second (exec instruction core) := rfl

theorem stackWords_append :
    stackWords (first ++ second) core =
      stackWords first core ++ stackWords second (run first core) := by
  induction first generalizing core with
  | nil => rfl
  | cons instruction first ih =>
    rw [List.cons_append, stackWords_cons, stackWords_cons, ih, run_cons, List.append_assoc]

end Run

section Flags

variable {core : Core} {instruction : Instruction} {first second code : List Instruction}
  {word : ℕ}

theorem flagsOf_lt (word : ℕ) : flagsOf word < 2 ^ 64 := by
  have hmask : word &&& flagMask < 2 ^ 64 := Nat.and_lt_two_pow word (by decide)
  exact Nat.or_lt_two_pow hmask (by decide)

theorem Core.Words.rflags_lt (h : core.Words) : core.rflags < 2 ^ 64 := h.rflags ▸ flagsOf_lt _

/-- `popfq` loads the bits of the mask. -/
theorem testBit_flagsOf {i : ℕ} (hmask : flagMask.testBit i = true)
    (hone : Nat.testBit 2 i = false) : (flagsOf word).testBit i = word.testBit i := by
  rw [flagsOf, Nat.testBit_or, Nat.testBit_and, hmask, hone, Bool.and_true, Bool.or_false]

/-- Only `popfq` changes the flags. -/
theorem exec_rflags (h : instruction ≠ .popfq) :
    (exec instruction core).rflags = core.rflags := by
  cases instruction <;> first | rfl | exact absurd rfl h

theorem interrupted_append :
    Interrupted (first ++ second) core ↔
      Interrupted first core ∨ Interrupted second (run first core) := by
  induction first generalizing core with
  | nil => exact (or_iff_right id).symm
  | cons instruction first ih =>
    rw [List.cons_append, Interrupted, Interrupted, ih, run_cons, or_assoc]

theorem run_rflags (hcode : ∀ instruction ∈ code, instruction ≠ .popfq) :
    (run code core).rflags = core.rflags := by
  induction code generalizing core with
  | nil => rfl
  | cons instruction code ih =>
    obtain ⟨hfirst, hcode⟩ := List.forall_mem_cons.mp hcode
    rw [run_cons, ih hcode, exec_rflags hfirst]

/-- Until `popfq` has been executed, an exception comes only if the trap flag was set before. -/
theorem interrupted_concat (hcode : ∀ instruction ∈ code, instruction ≠ .popfq) :
    Interrupted (code ++ [instruction]) core ↔ core.trapFlag = true := by
  induction code generalizing core with
  | nil => exact or_iff_left id
  | cons first code ih =>
    obtain ⟨hfirst, hcode⟩ := List.forall_mem_cons.mp hcode
    have hkept : (exec first core).trapFlag = core.trapFlag := by
      rw [Core.trapFlag, exec_rflags hfirst, Core.trapFlag]
    rw [List.cons_append, Interrupted, ih hcode, hkept, or_self]

/-- Code without `popfq` is interrupted if it is entered with the trap flag set. -/
theorem interrupted_iff (hne : code ≠ []) (hcode : ∀ instruction ∈ code, instruction ≠ .popfq) :
    Interrupted code core ↔ core.trapFlag = true := by
  have hlast := List.dropLast_append_getLast hne
  rw [← hlast]
  exact interrupted_concat fun other hother ↦ hcode other (List.mem_of_mem_dropLast hother)

end Flags

/-! ## Runs of stores -/

section Stores

variable {base : ℕ} {reg : Register → ℕ} {fields : List (Register × ℕ)} {memory : Memory}

/-- Store each register in its field of the record that `base` points at. -/
def storeFields (base : Register) (fields : List (Register × ℕ)) : List Instruction :=
  fields.map fun field ↦ .store field.1 field.2 base

/-- The memory after the registers have been stored in the fields of the record at `base`. -/
def storeAll (reg : Register → ℕ) (base : ℕ) (fields : List (Register × ℕ)) (memory : Memory) :
    Memory :=
  fields.foldl (fun memory field ↦ store64 memory (Word64.add base field.2) (reg field.1)) memory

theorem run_storeFields (core : Core) (base : Register) (fields : List (Register × ℕ)) :
    run (storeFields base fields) core =
      { core with memory := storeAll core.reg (core.reg base) fields core.memory } := by
  induction fields generalizing core with
  | nil => rfl
  | cons field fields ih => exact ih _

/-- Stores into fields leave what lies outside of the fields. -/
theorem storeAll_of_outside {x : ℕ} (hbound : ∀ field ∈ fields, base + field.2 < 2 ^ 64)
    (houtside : ∀ field ∈ fields, x < base + field.2 ∨ base + field.2 + 8 ≤ x) :
    storeAll reg base fields memory x = memory x := by
  induction fields generalizing memory with
  | nil => rfl
  | cons field fields ih =>
    change storeAll reg base fields _ x = _
    rw [ih (fun later hlater ↦ hbound later (List.mem_cons_of_mem _ hlater))
      fun later hlater ↦ houtside later (List.mem_cons_of_mem _ hlater)]
    apply store64_of_outside
    rw [Word64.add_of_lt (hbound field List.mem_cons_self)]
    exact houtside field List.mem_cons_self

/-- A word that no field overlaps keeps its value. -/
theorem load64_storeAll_of_apart {address : ℕ}
    (hbound : ∀ field ∈ fields, base + field.2 < 2 ^ 64)
    (hapart : ∀ field ∈ fields, address + 8 ≤ base + field.2 ∨ base + field.2 + 8 ≤ address) :
    load64 (storeAll reg base fields memory) address = load64 memory address := by
  apply load64_congr
  intro x hlow hhigh
  apply storeAll_of_outside hbound
  intro field hfield
  rcases hapart field hfield with h | h
  · exact Or.inl (hhigh.trans_le h)
  · exact Or.inr (h.trans hlow)

/-- Each register is found in its field. -/
theorem load64_storeAll {field : Register × ℕ} (hwords : ∀ field ∈ fields, reg field.1 < 2 ^ 64)
    (hbound : ∀ field ∈ fields, base + field.2 < 2 ^ 64)
    (hspaced : fields.Pairwise fun first second ↦
      first.2 + 8 ≤ second.2 ∨ second.2 + 8 ≤ first.2)
    (hfield : field ∈ fields) :
    load64 (storeAll reg base fields memory) (base + field.2) = reg field.1 := by
  induction fields generalizing memory with
  | nil => cases hfield
  | cons head fields ih =>
    have hhead := hbound head List.mem_cons_self
    have hrest : ∀ later ∈ fields, base + later.2 < 2 ^ 64 :=
      fun later hlater ↦ hbound later (List.mem_cons_of_mem _ hlater)
    obtain ⟨hapart, hspaced⟩ := List.pairwise_cons.mp hspaced
    change load64 (storeAll reg base fields
      (store64 memory (Word64.add base head.2) (reg head.1))) _ = _
    rcases List.mem_cons.mp hfield with rfl | hlater
    · rw [Word64.add_of_lt hhead, load64_storeAll_of_apart hrest,
        load64_store64_same (hwords field List.mem_cons_self)]
      intro later hlater
      have hne := hapart later hlater
      omega
    · exact ih (fun later hlater ↦ hwords later (List.mem_cons_of_mem _ hlater)) hrest hspaced
        hlater

end Stores

/-! ## Runs of loads -/

/-- Load each register from its field of the record that `base` points at. -/
def loadFields (base : Register) (fields : List (Register × ℕ)) : List Instruction :=
  fields.map fun field ↦ .load field.2 base field.1

/-- A run of loads changes no more than registers. -/
theorem run_loadFields (core : Core) (base : Register) (fields : List (Register × ℕ)) :
    run (loadFields base fields) core =
      { core with reg := (run (loadFields base fields) core).reg } := by
  induction fields generalizing core with
  | nil => rfl
  | cons field fields ih => exact ih _

theorem loadFields_ne_popfq {base : Register} {fields : List (Register × ℕ)} :
    ∀ instruction ∈ loadFields base fields, instruction ≠ .popfq := by
  intro instruction hmem
  obtain ⟨field, -, rfl⟩ := List.mem_map.mp hmem
  exact nofun

/-- A register that is not among the loaded ones keeps its value. -/
theorem run_loadFields_of_not_mem (core : Core) (base : Register) {fields : List (Register × ℕ)}
    {r : Register} (hr : r ∉ fields.map Prod.fst) :
    (run (loadFields base fields) core).reg r = core.reg r := by
  induction fields generalizing core with
  | nil => rfl
  | cons field fields ih =>
    rw [List.map_cons, List.mem_cons, not_or] at hr
    refine (ih (exec (.load field.2 base field.1) core) hr.2).trans ?_
    exact Function.update_of_ne hr.1 ..

/-- Each register gets the word in its field. -/
theorem run_loadFields_of_mem (core : Core) {base : Register} {fields : List (Register × ℕ)}
    {field : Register × ℕ} (hbase : base ∉ fields.map Prod.fst)
    (hnodup : (fields.map Prod.fst).Nodup) (hfield : field ∈ fields) :
    (run (loadFields base fields) core).reg field.1 =
      load64 core.memory (Word64.add (core.reg base) field.2) := by
  induction fields generalizing core with
  | nil => cases hfield
  | cons head fields ih =>
    rw [List.map_cons, List.mem_cons, not_or] at hbase
    obtain ⟨hhead, hnodup⟩ := List.nodup_cons.mp hnodup
    change (run (loadFields base fields) (exec (.load head.2 base head.1) core)).reg field.1 = _
    rcases List.mem_cons.mp hfield with rfl | hlater
    · rw [run_loadFields_of_not_mem _ _ hhead]
      exact Function.update_self ..
    · rw [ih _ hbase.2 hnodup hlater]
      simp [exec, Core.setReg, Function.update_of_ne hbase.1]

/-- Loads do not touch the stack. -/
theorem stackWords_loadFields (core : Core) (base : Register) (fields : List (Register × ℕ)) :
    stackWords (loadFields base fields) core = [] := by
  induction fields generalizing core with
  | nil => rfl
  | cons field fields ih => exact ih _

/-! ## The stack -/

def Core.withStack (core : Core) (top : ℕ) (memory : Memory) : Core :=
  { core with
    reg := Function.update core.reg .rsp top
    memory := memory }

section Stack

variable {core : Core} {value top address : ℕ} {memory : Memory} {r target : Register}

@[simp]
theorem setReg_reg_self : (core.setReg target value).reg target = value :=
  Function.update_self ..

@[simp]
theorem setReg_reg_of_ne (h : r ≠ target) : (core.setReg target value).reg r = core.reg r :=
  Function.update_of_ne h ..

@[simp]
theorem setReg_gs : (core.setReg target value).gs = core.gs := rfl

@[simp]
theorem setReg_memory : (core.setReg target value).memory = core.memory := rfl

@[simp]
theorem setReg_rflags : (core.setReg target value).rflags = core.rflags := rfl

@[simp]
theorem withStack_rsp : (core.withStack top memory).reg .rsp = top := by
  simp only [Core.withStack, Function.update_self]

@[simp]
theorem withStack_reg_of_ne (h : r ≠ .rsp) : (core.withStack top memory).reg r = core.reg r := by
  simp only [Core.withStack, Function.update_of_ne h]

@[simp]
theorem withStack_gs : (core.withStack top memory).gs = core.gs := rfl

@[simp]
theorem withStack_memory : (core.withStack top memory).memory = memory := rfl

@[simp]
theorem withStack_rflags : (core.withStack top memory).rflags = core.rflags := rfl

@[simp]
theorem withStack_withStack {other : ℕ} {later : Memory} :
    (core.withStack other later).withStack top memory = core.withStack top memory := by
  simp only [Core.withStack, Function.update_idem]

theorem pushWord_eq (htop : core.reg .rsp = top + 8) (hbound : top + 8 < 2 ^ 64) :
    core.pushWord value = core.withStack top (store64 core.memory top value) := by
  have hsub : Word64.sub (core.reg .rsp) 8 = top := by
    rw [htop, Word64.sub_of_le (Nat.le_add_left 8 top) hbound, Nat.add_sub_cancel]
  rw [Core.pushWord, hsub]
  rfl

theorem drop_eq (htop : core.reg .rsp = top) (hbound : top + 8 < 2 ^ 64) :
    core.drop = core.setReg .rsp (top + 8) := by
  rw [Core.drop, htop, Word64.add_of_lt hbound]

theorem exec_pop (htop : core.reg .rsp = top) (hbound : top + 8 < 2 ^ 64) :
    exec (.pop target) core =
      (core.setReg .rsp (top + 8)).setReg target (load64 core.memory top) := by
  rw [exec, drop_eq htop hbound, Core.top, htop]

theorem exec_store {source base : Register} {offset : ℕ}
    (haddress : core.reg base + offset = address) (hbound : address < 2 ^ 64) :
    exec (.store source offset base) core =
      { core with memory := store64 core.memory address (core.reg source) } := by
  subst haddress
  rw [exec, Word64.add_of_lt hbound]

theorem exec_load {base : Register} {offset : ℕ} (haddress : core.reg base + offset = address)
    (hbound : address < 2 ^ 64) :
    exec (.load offset base target) core = core.setReg target (load64 core.memory address) := by
  subst haddress
  rw [exec, Word64.add_of_lt hbound]

theorem exec_pushMemory {base : Register} {offset : ℕ} (haddress : core.reg base + offset = address)
    (hbound : address < 2 ^ 64) (htop : core.reg .rsp = top + 8) (hstack : top + 8 < 2 ^ 64) :
    exec (.pushMemory offset base) core =
      core.withStack top (store64 core.memory top (load64 core.memory address)) := by
  subst haddress
  rw [exec, Word64.add_of_lt hbound, pushWord_eq htop hstack]

theorem exec_popfq (htop : core.reg .rsp = top) (hbound : top + 8 < 2 ^ 64) :
    exec .popfq core =
      { core.setReg .rsp (top + 8) with rflags := flagsOf (load64 core.memory top) } := by
  rw [exec, drop_eq htop hbound, Core.top, htop]

theorem exec_ret (htop : core.reg .rsp = top) (hbound : top + 8 < 2 ^ 64) :
    exec .ret core =
      { core.setReg .rsp (top + 8) with rip := load64 core.memory top } := by
  rw [exec, drop_eq htop hbound, Core.top, htop]

end Stack

end SideHOS.Machine.X86
