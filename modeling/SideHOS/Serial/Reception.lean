import SideHOS.Kernel.Ports
import SideHOS.Serial.Command

/-!
# Reading a line from the device

At the level of port accesses `serial_read_str` polls the device, bytes come in while it works, and
its echo goes out as fast as the device sends it.  Every such run that ends computes what the code
computes on the bytes that the device had taken in before and took in meanwhile, in that order
(`run_of_runAmong`): `serial_read` takes each of them once, and no byte of the echo is lost.
-/

namespace SideHOS.Serial.Input

open Kernel Kernel.Input Machine Machine.LineEditor Machine.Word64 Machine.ByteMemory Sharing
  Sharing.Program

variable {Device α β : Type} {uart : Uart Device com1}

/-- The device works by itself and takes bytes in. -/
def DeviceMoves (uart : Uart Device com1) (state : PortState Device) (bytes : List UInt8)
    (after : PortState Device) : Prop :=
  uart.moves state.device bytes after.device ∧ after.serialLock = state.serialLock ∧
    after.memory = state.memory

def echoed (operations : List InputAccess) : List UInt8 :=
  operations.filterMap fun
    | .serialWrite byte => some byte
    | _ => none

/-- The bytes that the device has sent or is about to send. -/
def taken (uart : Uart Device com1) (device : Device) : List UInt8 :=
  (uart.traffic device).line ++ (uart.traffic device).transmitter

/-- Code that spins on `serial_received` only, and takes a byte only directly after it. -/
def Polls : Bool → InputCode α → Prop
  | _, .done _ => True
  | _, .access (.store _ _) next => ∀ answer, Polls false (next answer)
  | _, .access (.serialWrite _) next => ∀ answer, Polls false (next answer)
  | ready, .access .inb next => ready = true ∧ ∀ answer, Polls false (next answer)
  | _, .access .serialReceived _ => False
  | _, .await operation next => operation = .serialReceived ∧ Polls true next
  | _, .diverge => True

theorem Polls.mono {ready : Bool} {code : InputCode α} (h : Polls false code) :
    Polls ready code := by
  cases code with
  | done value => trivial
  | access operation next =>
    cases operation with
    | store address byte => exact h
    | serialWrite byte => exact h
    | inb => exact absurd h.1 Bool.false_ne_true
    | serialReceived => exact h
  | await operation next => exact h
  | diverge => trivial

theorem polls_bind {ready : Bool} {first : InputCode α} {next : α → InputCode β}
    (hfirst : Polls ready first) (hnext : ∀ value, Polls false (next value)) :
    Polls ready (first >>= next) := by
  change Polls ready (Program.bind first next)
  induction first generalizing ready with
  | done value => exact (hnext value).mono
  | access operation rest ih =>
    cases operation with
    | store address byte => exact fun answer ↦ ih answer (hfirst answer)
    | serialWrite byte => exact fun answer ↦ ih answer (hfirst answer)
    | inb => exact ⟨hfirst.1, fun answer ↦ ih answer (hfirst.2 answer)⟩
    | serialReceived => exact hfirst
  | await operation rest ih => exact ⟨hfirst.1, ih hfirst.2⟩
  | diverge => trivial

theorem polls_serialRead : Polls false Kernel.Input.serialRead :=
  ⟨rfl, rfl, fun _ ↦ trivial⟩

theorem polls_serialReadStrFrom (buffer fuel index : ℕ) :
    Polls false (serialReadStrFrom buffer fuel index) := by
  induction fuel generalizing index with
  | zero => trivial
  | succ fuel ih =>
    rw [serialReadStrFrom]
    apply polls_bind polls_serialRead
    intro character
    split_ifs
    · exact fun _ _ _ ↦ trivial
    · exact fun _ _ _ _ ↦ ih (index - 1)
    · exact fun _ _ _ ↦ ih (index + 1)
    · exact ih index

theorem polls_kgets (commandContext fuel : ℕ) : Polls false (kgets commandContext fuel) :=
  polls_bind (polls_serialReadStrFrom _ fuel 0) fun _ ↦ trivial

/-- What the code computes on a list of bytes, while the device comes from one state to another. -/
def Computes (uart : Uart Device com1) (code : InputCode α) (state : PortState Device)
    (received : List UInt8) (value : α) (final : PortState Device) : Prop :=
  ∀ more,
    run execInput code ⟨state.memory, received ++ more⟩ =
        some (value, ⟨final.memory, (uart.traffic final.device).received ++ more⟩) ∧
      taken uart final.device = taken uart state.device ++
        echoed (accesses execInput code ⟨state.memory, received ++ more⟩) ∧
      uart.registers final.device = uart.registers state.device

section Computes

variable {state next final : PortState Device} {received : List UInt8} {code : InputCode α}
  {value : α}

theorem Computes.congr (h : Computes uart code next received value final)
    (hmemory : next.memory = state.memory)
    (htaken : taken uart next.device = taken uart state.device)
    (hregisters : uart.registers next.device = uart.registers state.device) :
    Computes uart code state received value final := by
  intro more
  obtain ⟨hrun, hsent, hkept⟩ := h more
  rw [hmemory] at hrun hsent
  exact ⟨hrun, htaken ▸ hsent, hkept.trans hregisters⟩

/-- An access that is made at the device and on the list. -/
theorem Computes.access {operation : InputAccess} {rest : ℕ → InputCode α} {answer : ℕ}
    {memory : Memory} {before : List UInt8}
    (h : Computes uart (rest answer) next received value final)
    (hexec : ∀ more, execInput operation ⟨memory, before ++ more⟩ =
      (answer, ⟨next.memory, received ++ more⟩))
    (hmemory : state.memory = memory)
    (htaken : taken uart next.device = taken uart state.device ++ echoed [operation])
    (hregisters : uart.registers next.device = uart.registers state.device) :
    Computes uart (.access operation rest) state before value final := by
  intro more
  obtain ⟨hrun, hsent, hkept⟩ := h more
  rw [hmemory, run, accesses, hexec]
  refine ⟨hrun, ?_, hkept.trans hregisters⟩
  rw [hsent, htaken, List.append_assoc]
  cases operation <;> rfl

/-- A wait for a byte that is there. -/
theorem Computes.await {tail : InputCode α} {labels : List UInt8}
    (h : Computes uart tail state ((uart.traffic state.device).received ++ labels) value final)
    (hne : (uart.traffic state.device).received ≠ []) :
    Computes uart (.await .serialReceived tail) state
      ((uart.traffic state.device).received ++ labels) value final := by
  intro more
  have hpass : (execInput .serialReceived
      ⟨state.memory, (uart.traffic state.device).received ++ labels ++ more⟩).1 ≠ 0 := by
    rw [execInput, List.append_assoc, if_neg (List.append_ne_nil_of_left_ne_nil hne _)]
    exact one_ne_zero
  obtain ⟨hrun, hsent, hkept⟩ := h more
  rw [run, accesses, if_neg hpass, if_neg hpass]
  exact ⟨hrun, hsent, hkept⟩

end Computes

/-- All bits of a byte. -/
theorem and_ones (byte : UInt8) : byte &&& 0xFF = byte := by
  change byte &&& -1 = byte
  exact UInt8.and_neg_one

/-- `serial_received` says whether there is a byte to take. -/
theorem serialReceived_iff (state : PortState Device) :
    (execPort uart Kernel.serialReceived state).1 ≠ 0 ↔
      (uart.traffic state.device).received ≠ [] := by
  rw [← uart.status_received]
  exact (UInt8.toNat_inj (b := 0)).not

/-- Asking the device changes nothing. -/
theorem status_keeps (mask : UInt8) (state : PortState Device) :
    taken uart (execPort uart (.inb (com1 + 5) mask) state).2.device = taken uart state.device ∧
      uart.registers (execPort uart (.inb (com1 + 5) mask) state).2.device =
        uart.registers state.device ∧
      uart.traffic (execPort uart (.inb (com1 + 5) mask) state).2.device =
        uart.traffic state.device := by
  obtain ⟨hregisters, htraffic⟩ := uart.status_keeps state.device
  exact ⟨congrArg (fun traffic ↦ traffic.line ++ traffic.transmitter) htraffic, hregisters,
    htraffic⟩

/-- A run at the ports computes what the code computes on the bytes that the device takes in. -/
theorem computes_of_runAmong {code : InputCode α} {whole : PortCode α} {passed ready : Bool}
    {state final : PortState Device} {labels : List (List UInt8)} {value : α}
    (hrun : RunAmong (execPort uart) (DeviceMoves uart) whole state labels value final)
    (hstage : Stage inputGuard inputName passed code whole) (hpolls : Polls ready code)
    (hpassed : passed = true → (uart.traffic state.device).transmitter = [])
    (hready : ready = true → (uart.traffic state.device).received ≠ [])
    (hlatched : ¬ (uart.registers state.device).Latched) :
    Computes uart code state ((uart.traffic state.device).received ++ labels.flatten) value
      final := by
  induction hrun generalizing code passed ready with
  | done value state =>
    rw [hstage.done]
    intro more
    rw [List.flatten_nil, List.append_nil]
    exact ⟨rfl, (List.append_nil _).symm, rfl⟩
  | @moved whole state next final bytes labels value first rest ih =>
    obtain ⟨hmoves, -, hmemory⟩ := first
    obtain ⟨hregisters, hsent, htransmitter, hreceived⟩ := uart.moves_keeps _ _ _ hmoves
    have hcomputes := ih hstage hpolls
      (fun h ↦ List.suffix_nil.mp (hpassed h ▸ htransmitter))
      (fun h ↦ by
        rw [hreceived]
        exact List.append_ne_nil_of_left_ne_nil (hready h) _)
      (fun h ↦ hlatched (hregisters ▸ h))
    rw [hreceived, List.append_assoc] at hcomputes
    exact hcomputes.congr hmemory hsent hregisters
  | @advance whole later state next final labels value first rest ih =>
    have hadvanced := hstage.advance first
    cases hadvanced with
    | tried operation tail test after _ hguard hnext hafter =>
      cases operation with
      | serialWrite byte =>
        cases hguard
        obtain ⟨htaken, hregisters, htraffic⟩ := status_keeps 0x20 state
        have hcomputes := ih hnext hpolls
          (fun h ↦ (congrArg UartTraffic.transmitter htraffic).trans
            ((uart.status_transmitter _).mp fun hzero ↦ hafter h (congrArg UInt8.toNat hzero)))
          (fun h ↦ (congrArg UartTraffic.received htraffic).trans_ne (hready h))
          (fun h ↦ hlatched (hregisters ▸ h))
        rw [htraffic] at hcomputes
        exact hcomputes.congr rfl htaken hregisters
      | store address byte => cases hguard
      | inb => cases hguard
      | serialReceived => cases hguard
    | made operation tail hmade =>
      cases operation with
      | store address byte =>
        have hcomputes := ih (.before _) (hpolls 0) (fun h ↦ absurd h Bool.false_ne_true)
          (fun h ↦ absurd h Bool.false_ne_true) hlatched
        exact hcomputes.access (fun _ ↦ rfl) rfl (List.append_nil _).symm rfl
      | serialWrite byte =>
        have hempty := hpassed (hmade (Option.some_ne_none _))
        have hregisters : uart.registers (uart.outb (com1 + 0) byte state.device) =
            uart.registers state.device := by
          rw [uart.registers_outb 0 _ _ (by decide), UartRegisters.write, if_neg hlatched]
        have htraffic := uart.traffic_data byte _ hlatched hempty
        have hcomputes := ih (.before _) (hpolls 0) (fun h ↦ absurd h Bool.false_ne_true)
          (fun h ↦ absurd h Bool.false_ne_true) (fun h ↦ hlatched (hregisters ▸ h))
        have hreceived : (uart.traffic (execPort uart (inputName (.serialWrite byte))
            state).2.device).received = (uart.traffic state.device).received := by
          change (uart.traffic (uart.outb (com1 + 0) byte state.device)).received = _
          rw [htraffic]
        rw [hreceived] at hcomputes
        refine hcomputes.access (fun _ ↦ rfl) rfl ?_ hregisters
        change (uart.traffic (uart.outb (com1 + 0) byte state.device)).line ++
          (uart.traffic (uart.outb (com1 + 0) byte state.device)).transmitter = _
        rw [htraffic, taken, hempty, List.append_nil]
        rfl
      | inb =>
        obtain ⟨byte, bytes, hreceived⟩ := List.exists_cons_of_ne_nil (hready hpolls.1)
        obtain ⟨hbyte, hregisters, htraffic⟩ := uart.read_data _ byte bytes hlatched hreceived
        have hanswer : (execPort uart (inputName .inb) state).1 = byte.toNat := by
          change ((uart.inb (com1 + 0) state.device).1 &&& 0xFF).toNat = byte.toNat
          rw [hbyte, and_ones]
        have hcomputes := ih (.before _) (hpolls.2 _) (fun h ↦ absurd h Bool.false_ne_true)
          (fun h ↦ absurd h Bool.false_ne_true) (fun h ↦ hlatched (hregisters ▸ h))
        have hrest : (uart.traffic (execPort uart (inputName .inb) state).2.device).received =
            bytes := congrArg UartTraffic.received htraffic
        rw [hrest, hanswer] at hcomputes
        rw [hreceived]
        refine hcomputes.access (fun _ ↦ rfl) rfl ?_ hregisters
        exact (congrArg (fun traffic ↦ traffic.line ++ traffic.transmitter) htraffic).trans
          (List.append_nil _).symm
      | serialReceived => exact hpolls.elim
    | spun operation tail hfail =>
      obtain ⟨rfl, htail⟩ := hpolls
      obtain ⟨htaken, hregisters, htraffic⟩ := status_keeps 1 state
      have hpolls : Polls false (.await .serialReceived tail) := ⟨rfl, htail⟩
      have hcomputes := ih (.before _) hpolls (fun h ↦ absurd h Bool.false_ne_true)
        (fun h ↦ absurd h Bool.false_ne_true) (fun h ↦ hlatched (hregisters ▸ h))
      rw [show uart.traffic (execPort uart (inputName .serialReceived) state).2.device =
        uart.traffic state.device from htraffic] at hcomputes
      exact hcomputes.congr rfl htaken hregisters
    | left operation tail hsuccess =>
      obtain ⟨rfl, htail⟩ := hpolls
      obtain ⟨htaken, hregisters, htraffic⟩ := status_keeps 1 state
      have hne := (serialReceived_iff state).mp hsuccess
      have hcomputes := ih (.before _) htail (fun h ↦ absurd h Bool.false_ne_true)
        (fun _ ↦ (congrArg UartTraffic.received htraffic).trans_ne hne)
        (fun h ↦ hlatched (hregisters ▸ h))
      rw [show uart.traffic (execPort uart (inputName .serialReceived) state).2.device =
        uart.traffic state.device from htraffic] at hcomputes
      have hhere : Computes uart tail state ((uart.traffic state.device).received ++ labels.flatten)
          value final := hcomputes.congr rfl htaken hregisters
      exact hhere.await hne

end SideHOS.Serial.Input
