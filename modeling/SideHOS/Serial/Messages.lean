import Mathlib.Data.Nat.Fib.Basic
import SideHOS.Serial.Output
import SideHOS.Transition.Run

/-!
# Messages are not interleaved

Every critical section under `serial_lock` writes one message and releases the lock.  Since only
the holder of the lock has bytes left to write, what has been written at any time is the messages
of the earlier critical sections, one after another, and a beginning of the holder's.
-/

namespace SideHOS.Serial

open Kernel Machine.Word64 Sharing Sharing.Program Transition

/-! ## The numbers printed -/

/-- While the counter does not wrap, the loop multiplies up to the factorial. -/
theorem factorialLoop_eq {n fuel i : ℕ} (hn : n + 1 < 2 ^ 64) (hi : i ≤ n) (hfuel : n ≤ i + fuel) :
    factorialLoop n (fuel + 1) (i + 1) (i.factorial % 2 ^ 64) = some (n.factorial % 2 ^ 64) := by
  induction fuel generalizing i with
  | zero =>
    obtain rfl : i = n := by omega
    rw [factorialLoop, if_neg (by omega)]
  | succ fuel ih =>
    rw [factorialLoop]
    rcases Nat.lt_or_eq_of_le hi with hlt | rfl
    · have hresult : mul (i.factorial % 2 ^ 64) (i + 1) = (i + 1).factorial % 2 ^ 64 := by
        rw [mul, Nat.mod_mul_mod, Nat.factorial_succ, Nat.mul_comm]
      rw [if_pos (Nat.succ_le_of_lt hlt), add_of_lt (by omega), hresult]
      exact ih hlt (by omega)
    · rw [if_neg (by omega)]

/-- Once the bound is the last word, the counter never passes it. -/
theorem factorialLoop_wraps {n : ℕ} (hn : 2 ^ 64 ≤ n + 1) {fuel i : ℕ} (hi : i < 2 ^ 64)
    (result : ℕ) : factorialLoop n fuel i result = none := by
  induction fuel generalizing i result with
  | zero => rfl
  | succ fuel ih =>
    rw [factorialLoop, if_pos (by omega)]
    exact ih (add_lt i 1) _

/-- The loop of `factorial`: it ends unless its bound is the last word, with the factorial. -/
theorem factorialLoop_start (n : ℕ) :
    factorialLoop n walkFuel 2 1 =
      if n + 1 < 2 ^ 64 then some (n.factorial % 2 ^ 64) else none := by
  split
  case isTrue hn =>
    rw [walkFuel]
    rcases Nat.eq_zero_or_pos n with rfl | hpos
    · change factorialLoop 0 (2 ^ 64 - 1 + 1) 2 1 = some 1
      rw [factorialLoop, if_neg (by norm_num)]
    · exact @factorialLoop_eq n (2 ^ 64 - 1) 1 hn hpos (by omega)
  case isFalse hn => exact factorialLoop_wraps (not_lt.mp hn) (by norm_num) 1

/-- While the counter does not wrap, the loop adds up to the Fibonacci number. -/
theorem fibonacciLoop_eq {n fuel i : ℕ} (hn : n + 1 < 2 ^ 64) (hi : i + 1 ≤ n)
    (hfuel : n ≤ i + 1 + fuel) :
    fibonacciLoop n (fuel + 1) (i + 2) (i.fib % 2 ^ 64) ((i + 1).fib % 2 ^ 64) =
      some (n.fib % 2 ^ 64) := by
  induction fuel generalizing i with
  | zero =>
    obtain rfl : i + 1 = n := by omega
    rw [fibonacciLoop, if_neg (by omega)]
  | succ fuel ih =>
    rw [fibonacciLoop]
    rcases Nat.lt_or_eq_of_le hi with hlt | rfl
    · have hsum : add (i.fib % 2 ^ 64) ((i + 1).fib % 2 ^ 64) = (i + 2).fib % 2 ^ 64 := by
        rw [add, ← Nat.add_mod, ← Nat.fib_add_two]
      rw [if_pos (by omega), add_of_lt (by omega), hsum]
      exact ih hlt (by omega)
    · rw [if_neg (by omega)]

theorem fibonacciLoop_wraps {n : ℕ} (hn : 2 ^ 64 ≤ n + 1) {fuel i : ℕ} (hi : i < 2 ^ 64)
    (a b : ℕ) : fibonacciLoop n fuel i a b = none := by
  induction fuel generalizing i a b with
  | zero => rfl
  | succ fuel ih =>
    rw [fibonacciLoop, if_pos (by omega)]
    exact ih (add_lt i 1) _ _

/-- The loop of `fibonacci`: it ends unless its bound is the last word, with the Fibonacci
number. -/
theorem fibonacciLoop_start {n : ℕ} (htwo : 2 ≤ n) :
    fibonacciLoop n walkFuel 2 0 1 = if n + 1 < 2 ^ 64 then some (n.fib % 2 ^ 64) else none := by
  split
  case isTrue hn =>
    rw [walkFuel]
    exact @fibonacciLoop_eq n (2 ^ 64 - 1) 0 hn (by omega) (by omega)
  case isFalse hn => exact fibonacciLoop_wraps (not_lt.mp hn) (by norm_num) 0 1

/-! ## The messages -/

/-- The line that `factorial` and `fibonacci` print. -/
def line (name : String) (n result i : ℕ) : List UInt8 :=
  textBytes "Lock tries - " ++ hexBytes i ++ textBytes " - " ++ textBytes name ++ hexBytes n ++
    textBytes " - " ++ hexBytes result ++ textBytes "\r\n"

/-- The message of a critical section entered after `i` failed tries. -/
def message : Printer → ℕ → List UInt8
  | .factorial n, i => line "Factorial - " n (n.factorial % 2 ^ 64) i
  | .fibonacci n, i => line "Fibonacci - " n (n.fib % 2 ^ 64) i
  | .greeting, _ => textBytes "Hello, World!\r\n"

/-- The bytes that are left to write, and the lock given back. -/
def finishing : List UInt8 → SerialCode Unit
  | [] => .access .lockRelease fun _ ↦ .done ()
  | byte :: bytes => .access (.serialWrite byte) fun _ ↦ finishing bytes

theorem finishing_eq (bytes : List UInt8) :
    finishing bytes = (writeAll bytes >>= fun _ ↦ do
      let _ ← perform .lockRelease
      pure ()) := by
  induction bytes with
  | nil => rfl
  | cons byte bytes ih => rw [finishing, ih, writeAll_cons_bind]

/-- `factorial` and `fibonacci` write their line and release the lock. -/
theorem printLine_eq (name : String) (hlength : (textBytes name).length < 128)
    (hbytes : (0 : UInt8) ∉ textBytes name) (n result i : ℕ) :
    printLine name n result i = finishing (line name n result i) := by
  rw [printLine, kputs_literal _ (by decide) (by decide), kputhex_eq,
    kputs_literal _ (by decide) (by decide), kputs_literal name hlength hbytes, kputhex_eq,
    kputhex_eq, kputs_literal _ (by decide) (by decide), finishing_eq, line]
  simp only [writeAll_append_bind]

/-- A critical section writes its message and releases the lock. -/
theorem criticalSection_eq {printer : Printer} {body : ℕ → SerialCode Unit}
    (h : criticalSection printer = some body) (i : ℕ) : body i = finishing (message printer i) := by
  cases printer with
  | factorial n =>
    rw [criticalSection, factorialLoop_start] at h
    split at h
    · cases h
      exact printLine_eq _ (by decide) (by decide) n _ i
    · cases h
  | fibonacci n =>
    rw [criticalSection] at h
    split at h
    · cases h
    · rw [fibonacciLoop_start (by omega)] at h
      split at h
      · cases h
        exact printLine_eq _ (by decide) (by decide) n _ i
      · cases h
  | greeting =>
    cases h
    rw [kputs_literal _ (by decide) (by decide), message, finishing_eq]

/-! ## The invariant -/

variable {Proc : Type}

/-- The bytes of complete critical sections, in the order in which they were entered. -/
def transcript (entries : List (Entry Proc)) : List (ℕ × UInt8) :=
  entries.zipIdx.flatMap fun e ↦ (message e.1.printer e.1.i).map (e.2, ·)

theorem transcript_concat (entries : List (Entry Proc)) (entry : Entry Proc) :
    transcript (entries ++ [entry]) =
      transcript entries ++ (message entry.printer entry.i).map (entries.length, ·) := by
  simp only [transcript, List.zipIdx_append, List.flatMap_append, zero_add, List.zipIdx_singleton,
    List.flatMap_singleton]

theorem map_snd_transcript (entries : List (Entry Proc)) :
    (transcript entries).map Prod.snd =
      entries.flatMap fun entry ↦ message entry.printer entry.i := by
  induction entries using List.reverseRecOn with
  | nil => rfl
  | append_singleton entries entry ih =>
    rw [transcript_concat, List.map_append, ih, List.flatMap_append, List.map_map]
    simp only [Function.comp_def, List.map_id', List.flatMap_singleton]

def Outside : SerialThread → Prop
  | .inside _ rest => rest = .done ()
  | _ => True

/-- Nobody prints, and the messages so far are complete. -/
structure Quiet (config : SerialConfig Proc) : Prop where
  lock : config.serialLock = 0
  outside : ∀ proc, Outside (config.thread proc)
  written : config.written = transcript config.entered

/-- One processor prints: it has written a part of its message behind the complete ones. -/
structure Printing (config : SerialConfig Proc) (holder : Proc) (complete : List (Entry Proc))
    (entry : Entry Proc) (part remaining : List UInt8) : Prop where
  lock : config.serialLock = 1
  entered : config.entered = complete ++ [entry]
  proc : entry.proc = holder
  message : message entry.printer entry.i = part ++ remaining
  thread : config.thread holder = .inside complete.length (finishing remaining)
  outside : ∀ proc, proc ≠ holder → Outside (config.thread proc)
  written : config.written = transcript complete ++ part.map (complete.length, ·)

/-- What a processor in the spin loop will run is the critical section of its printer. -/
def Bodies (thread : Proc → SerialThread) : Prop :=
  ∀ proc printer body i, thread proc = .trying printer body i →
    criticalSection printer = some body

/-- The lock is free and nobody prints, or the processor that holds it prints. -/
structure Orderly (config : SerialConfig Proc) : Prop where
  bodies : Bodies config.thread
  lock : Quiet config ∨ ∃ holder complete entry part remaining,
    Printing config holder complete entry part remaining

theorem orderly_silent : Orderly (silent : SerialConfig Proc) where
  bodies _ _ _ _ h := by cases h
  lock := .inl ⟨rfl, fun _ ↦ trivial, rfl⟩

theorem finishing_ne_done (bytes : List UInt8) : finishing bytes ≠ .done () := by
  cases bytes <;> exact fun h ↦ nomatch h

theorem Printing.not_outside {config : SerialConfig Proc} {holder : Proc}
    {complete : List (Entry Proc)} {entry : Entry Proc} {part remaining : List UInt8}
    (h : Printing config holder complete entry part remaining) :
    ¬ Outside (config.thread holder) := by
  rw [h.thread]
  exact finishing_ne_done remaining

/-- A processor that has nothing to do under the lock does not print. -/
theorem Printing.ne_of_outside {config : SerialConfig Proc} {holder proc : Proc}
    {complete : List (Entry Proc)} {entry : Entry Proc} {part remaining : List UInt8}
    (h : Printing config holder complete entry part remaining)
    (hproc : Outside (config.thread proc)) : holder ≠ proc :=
  fun heq ↦ h.not_outside (heq ▸ hproc)

/-- What has been written is complete messages, each written by one critical section without a
byte of another in between, and a prefix of the message of the last section entered. -/
def Whole (config : SerialConfig Proc) : Prop :=
  ∃ complete : List (Entry Proc), ∃ part : List UInt8,
    config.written.map Prod.snd =
      (complete.flatMap fun entry ↦ message entry.printer entry.i) ++ part ∧
    config.written = transcript complete ++ part.map (complete.length, ·) ∧
    (config.entered = complete ∧ part = [] ∨
      ∃ entry, config.entered = complete ++ [entry] ∧ part <+: message entry.printer entry.i)

theorem Orderly.whole {config : SerialConfig Proc} (h : Orderly config) : Whole config := by
  rcases h.lock with hquiet | ⟨holder, complete, entry, part, remaining, hprinting⟩
  · refine ⟨config.entered, [], ?_, ?_, .inl ⟨rfl, rfl⟩⟩
    · rw [hquiet.written, map_snd_transcript, List.append_nil]
    · rw [hquiet.written, List.map_nil, List.append_nil]
  · refine ⟨complete, part, ?_, hprinting.written, .inr ⟨entry, hprinting.entered, ?_⟩⟩
    · rw [hprinting.written, List.map_append, map_snd_transcript, List.map_map]
      simp only [Function.comp_def, List.map_id']
    · exact hprinting.message ▸ List.prefix_append part remaining

variable [DecidableEq Proc]

theorem Bodies.update {thread : Proc → SerialThread} (h : Bodies thread) (proc : Proc)
    {new : SerialThread}
    (hnew : ∀ printer body i, new = .trying printer body i →
      criticalSection printer = some body) : Bodies (Function.update thread proc new) := by
  intro other printer body i hother
  by_cases heq : other = proc
  · rw [heq, Function.update_self] at hother
    exact hnew printer body i hother
  · rw [Function.update_of_ne heq] at hother
    exact h other printer body i hother

theorem outside_update {thread : Proc → SerialThread} {proc : Proc} {new : SerialThread}
    (hnew : Outside new) {other : Proc} (h : other ≠ proc → Outside (thread other)) :
    Outside (Function.update thread proc new other) := by
  by_cases heq : other = proc
  · rwa [heq, Function.update_self]
  · rw [Function.update_of_ne heq]
    exact h heq

/-- A step of a processor that has nothing to do under the lock is not noticed. -/
theorem Orderly.away {config : SerialConfig Proc} (h : Orderly config) {proc : Proc}
    {new : SerialThread} (hold : Outside (config.thread proc)) (hnew : Outside new)
    (hbodies : ∀ printer body i, new = .trying printer body i →
      criticalSection printer = some body) :
    Orderly { config with thread := Function.update config.thread proc new } := by
  refine ⟨h.bodies.update proc hbodies, ?_⟩
  rcases h.lock with hquiet | ⟨holder, complete, entry, part, remaining, hprinting⟩
  · left
    exact ⟨hquiet.lock, fun other ↦ outside_update hnew fun _ ↦ hquiet.outside other,
      hquiet.written⟩
  · right
    refine ⟨holder, complete, entry, part, remaining, hprinting.lock, hprinting.entered,
      hprinting.proc, hprinting.message, ?_, ?_, hprinting.written⟩
    · exact (Function.update_of_ne (hprinting.ne_of_outside hold) _ _).trans hprinting.thread
    · exact fun other hother ↦ outside_update hnew fun _ ↦ hprinting.outside other hother

/-- A processor that passes the spin loop finds nobody printing, and its message begins. -/
theorem Orderly.enter {config : SerialConfig Proc} (h : Orderly config) {proc : Proc}
    {printer : Printer} {body : ℕ → SerialCode Unit} {i : ℕ}
    (hthread : config.thread proc = .trying printer body i)
    (hsuccess : (execSerial .lockAcquire config.serialLock).1 ≠ 0) :
    Orderly { config with
      serialLock := (execSerial .lockAcquire config.serialLock).2
      thread := Function.update config.thread proc (.inside config.entered.length (body i))
      entered := config.entered ++ [⟨proc, printer, i⟩] } := by
  have hlock : config.serialLock = 0 := by
    by_contra hne
    exact hsuccess (congrArg Prod.fst (if_neg hne))
  have hbody : body i = finishing (message printer i) :=
    criticalSection_eq (h.bodies proc printer body i hthread) i
  refine ⟨h.bodies.update proc (fun _ _ _ heq ↦ nomatch heq), ?_⟩
  rcases h.lock with hquiet | ⟨holder, _, _, _, _, hprinting⟩
  · right
    refine ⟨proc, config.entered, ⟨proc, printer, i⟩, [], message printer i, ?_, rfl, rfl, rfl,
      ?_, ?_, ?_⟩
    · rw [hlock]
      rfl
    · rw [hbody]
      exact Function.update_self ..
    · intro other hne
      exact (congrArg Outside (Function.update_of_ne hne _ _)).mpr (hquiet.outside other)
    · rw [List.map_nil, List.append_nil]
      exact hquiet.written
  · exact absurd (hlock.symm.trans hprinting.lock) zero_ne_one

/-- The holder writes its next byte, or gives the lock back behind its last one. -/
theorem Orderly.access {config : SerialConfig Proc} (h : Orderly config) {proc : Proc}
    {position : ℕ} {operation : SerialAccess} {next : ℕ → SerialCode Unit}
    (hthread : config.thread proc = .inside position (.access operation next)) :
    Orderly { config with
      serialLock := (execSerial operation config.serialLock).2
      thread := Function.update config.thread proc
        (.inside position (next (execSerial operation config.serialLock).1))
      written := config.written ++ operation.bytes.map (position, ·) } := by
  refine ⟨h.bodies.update proc (fun _ _ _ heq ↦ nomatch heq), ?_⟩
  have hinside : ¬ Outside (config.thread proc) := by
    rw [hthread]
    exact fun heq ↦ nomatch heq
  rcases h.lock with hquiet | ⟨holder, complete, entry, part, remaining, hprinting⟩
  · exact absurd (hquiet.outside proc) hinside
  have hholder : proc = holder := by
    by_contra hne
    exact hinside (hprinting.outside proc hne)
  subst hholder
  have hrest := hthread.symm.trans hprinting.thread
  cases remaining with
  | nil =>
    rw [finishing] at hrest
    cases hrest
    left
    refine ⟨rfl, fun other ↦ ?_, ?_⟩
    · apply outside_update
      · rfl
      · exact hprinting.outside other
    · have hmessage : message entry.printer entry.i = part := by
        rw [hprinting.message, List.append_nil]
      change config.written ++ [] = transcript config.entered
      rw [List.append_nil, hprinting.written, hprinting.entered, transcript_concat, hmessage]
  | cons byte remaining =>
    rw [finishing] at hrest
    cases hrest
    right
    refine ⟨proc, complete, entry, part ++ [byte], remaining, hprinting.lock, hprinting.entered,
      hprinting.proc, ?_, Function.update_self .., ?_, ?_⟩
    · rw [hprinting.message, List.append_assoc, List.singleton_append]
    · intro other hne
      exact (congrArg Outside (Function.update_of_ne hne _ _)).mpr (hprinting.outside other hne)
    · change config.written ++ [(complete.length, byte)] = _
      rw [hprinting.written, List.map_append, List.append_assoc]
      rfl

theorem Orderly.step {config after : SerialConfig Proc} {event : SerialEvent Proc}
    (h : Orderly config) (hstep : SerialStep config event after) : Orderly after := by
  cases hstep with
  | start proc printer body hthread hbody =>
    refine h.away ?_ trivial ?_
    · rw [hthread]
      trivial
    · rintro _ _ _ ⟨⟩
      exact hbody
  | retry proc printer body i hthread hfail =>
    have hlock : (execSerial .lockAcquire config.serialLock).2 = config.serialLock := by
      by_cases hzero : config.serialLock = 0
      · rw [hzero] at hfail
        exact absurd hfail one_ne_zero
      · exact congrArg Prod.snd (if_neg hzero)
    rw [hlock]
    refine h.away ?_ trivial ?_
    · rw [hthread]
      trivial
    · rintro _ _ _ ⟨⟩
      exact h.bodies proc printer body i hthread
  | enter proc printer body i hthread hsuccess => exact h.enter hthread hsuccess
  | access proc position operation next hthread => exact h.access hthread
  | leave proc position hthread =>
    refine h.away ?_ trivial fun _ _ _ heq ↦ nomatch heq
    rw [hthread]
    rfl

/-- In every interleaving of any number of processors the messages are not interleaved. -/
theorem messages_whole {config : SerialConfig Proc}
    {taken : List (Taken (SerialConfig Proc) (SerialEvent Proc))}
    (hrun : Run SerialStep silent taken config) : Whole config :=
  have horderly : Orderly config :=
    hrun.invariant Orderly (fun _ ↦ True) orderly_silent
      (fun _ _ _ h hstep _ ↦ h.step hstep) fun _ _ ↦ trivial
  horderly.whole

/-- Two processors greet; the first has written a byte and the second has tried once. -/
theorem messages_whole_greeting :
    ∃ taken, ∃ config : SerialConfig Bool, Run SerialStep silent taken config ∧
      config.written = [(0, 72)] ∧ Whole config := by
  have hfirst := Run.nil.snoc _
    (SerialStep.start (silent : SerialConfig Bool) false .greeting _ rfl rfl)
  have henter := hfirst.snoc _
    (SerialStep.enter _ false .greeting _ 0 rfl (by decide))
  have hsecond := henter.snoc _ (SerialStep.start _ true .greeting _ rfl rfl)
  have hretry := hsecond.snoc _
    (SerialStep.retry _ true .greeting _ 0 rfl (by decide))
  have hwrite := hretry.snoc _ (SerialStep.access _ false 0 (.serialWrite 72) _ rfl)
  exact ⟨_, _, hwrite, rfl, messages_whole hwrite⟩

end SideHOS.Serial
