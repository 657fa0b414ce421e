import InfoGlobe.Library.FlatMemory
import InfoGlobe.Library.MachineWords
import InfoGlobe.Library.StepSystem
import InfoGlobe.Firmware.MessageType

/-!
The IR transmitter: `ir_tx_task` and the `timer_callback` of its periodic timer, which share the
message, the three counters and the LED channel without a lock. Every statement of the task and
every callback is one step, callbacks are possible whenever the timer runs, and other tasks may
enqueue buffers at any time.
-/

namespace InfoGlobe.IrLedTask
open FlatMemory MachineInt BitOrder

def pwmDuty : Nat := 128

/-- The statement `ir_tx_task` executes next. -/
inductive TaskPc
  | ledcChannelConfig | initalizeMessage | startTimerBoot
  | testTxLen
  | setDutyOff | updateDutyOff | stopTimer | logComplete
  | popBuffer | delay | printBuffer
  | memsetMessage | setTxLen | setTxByteIndex | setTxBitIndex | memcpyMessage
  | startTimer | logBegin | freeBuffer
  | aborted
  deriving DecidableEq

structure State where
  pc : TaskPc
  timerRunning : Bool
  /-- `message[]` from offset 0, followed by whatever memory lies behind the array. -/
  message : Nat → UInt8
  txBitIndex : Int
  txByteIndex : Int
  txLen : Int
  /-- The duty last given to `ledc_set_duty`, and the one `ledc_update_duty` made effective. -/
  duty : Nat
  dutyOut : Nat
  displayQueue : List MsgBuffer
  received : MsgBuffer

inductive Label
  | task
  /-- `stray` is the byte found where `tx_byte_index` points, when that is outside the array. -/
  | callback (stray : UInt8)
  | enqueue (b : MsgBuffer)
  deriving DecidableEq

/-- The state in which `ir_tx_task` is entered: the globals have their initializers. -/
def boot (memory : Nat → UInt8) : State where
  pc := .ledcChannelConfig
  timerRunning := false
  message := writeAt memory 0 (List.replicate maxMessageLen 0)
  txBitIndex := 0
  txByteIndex := 0
  txLen := 0
  duty := 0
  dutyOut := 0
  displayQueue := []
  received := []

/-! ### The timer callback -/

def currentByte (stray : UInt8) (s : State) : UInt8 :=
  if 0 ≤ s.txByteIndex ∧ s.txByteIndex < maxMessageLen then s.message s.txByteIndex.toNat else stray

def currentBit (stray : UInt8) (s : State) : Bool :=
  bitMsb (currentByte stray s) s.txBitIndex.toNat

/-- A 1 bit switches the carrier off, a 0 bit switches it on. -/
def bitDuty (bit : Bool) : Nat := if bit then 0 else pwmDuty

def advanceCounters (s : State) : State :=
  let next := int32 (s.txBitIndex + 1)
  if 8 ≤ next then
    { s with
      txBitIndex := 0
      txByteIndex := int32 (s.txByteIndex + 1)
      txLen := int32 (s.txLen - 1) }
  else { s with txBitIndex := next }

def timerCallback (stray : UInt8) (s : State) : State :=
  let duty := bitDuty (currentBit stray s)
  advanceCounters { s with duty := duty, dutyOut := duty }

/-! ### The task -/

/-- `memset` and `memcpy` of the boot message. -/
def initalizeMessage (message : Nat → UInt8) : Nat → UInt8 :=
  writeAt (writeAt message 0 (List.replicate maxMessageLen 0)) 1 (asciiBytes "OLYMPIA INFOGLOBE")

/-- `ESP_ERROR_CHECK(esp_timer_start_periodic(..))`: starting a running timer is an error. -/
def espTimerStartPeriodic (next : TaskPc) (s : State) : State :=
  if s.timerRunning then { s with pc := .aborted } else { s with timerRunning := true, pc := next }

/-- `ESP_ERROR_CHECK(esp_timer_stop(..))`: stopping a stopped timer is an error. -/
def espTimerStop (next : TaskPc) (s : State) : State :=
  if s.timerRunning then { s with timerRunning := false, pc := next } else { s with pc := .aborted }

def taskStep (s : State) : Option State :=
  match s.pc with
  | .ledcChannelConfig =>
      some { s with duty := pwmDuty, dutyOut := pwmDuty, pc := .initalizeMessage }
  | .initalizeMessage =>
      some { s with message := initalizeMessage s.message, pc := .startTimerBoot }
  | .startTimerBoot => some (espTimerStartPeriodic .testTxLen s)
  | .testTxLen => some (if s.txLen = 0 then { s with pc := .setDutyOff } else s)
  | .setDutyOff => some { s with duty := 0, pc := .updateDutyOff }
  | .updateDutyOff => some { s with dutyOut := s.duty, pc := .stopTimer }
  | .stopTimer => some (espTimerStop .logComplete s)
  | .logComplete => some { s with pc := .popBuffer }
  -- `portMAX_DELAY`: the task stays here until there is a buffer
  | .popBuffer =>
      match s.displayQueue with
      | [] => none
      | b :: q => some { s with displayQueue := q, received := b, pc := .delay }
  | .delay => some { s with pc := .printBuffer }
  | .printBuffer => some { s with pc := .memsetMessage }
  | .memsetMessage =>
      some { s with
        message := writeAt s.message 0 (List.replicate maxMessageLen 0)
        pc := .setTxLen }
  | .setTxLen => some { s with txLen := int32 s.received.length, pc := .setTxByteIndex }
  | .setTxByteIndex => some { s with txByteIndex := 0, pc := .setTxBitIndex }
  | .setTxBitIndex => some { s with txBitIndex := 0, pc := .memcpyMessage }
  | .memcpyMessage =>
      some { s with
        message := writeAt s.message 0 (s.received.take s.txLen.toNat)
        pc := .startTimer }
  | .startTimer => some (espTimerStartPeriodic .logBegin s)
  | .logBegin => some { s with pc := .freeBuffer }
  | .freeBuffer => some { s with received := [], pc := .testTxLen }
  | .aborted => none

def step (s : State) : Label → Option State
  | .task => taskStep s
  | .callback stray => if s.timerRunning then some (timerCallback stray s) else none
  | .enqueue b => (xQueueSend s.displayQueue b).map fun q => { s with displayQueue := q }

/-! ### What the steps leave alone -/

section Fields
variable (stray : UInt8) (s : State)

@[simp] theorem timerCallback_pc : (timerCallback stray s).pc = s.pc := by
  simp only [timerCallback, advanceCounters]
  split <;> rfl

@[simp] theorem timerCallback_timerRunning :
    (timerCallback stray s).timerRunning = s.timerRunning := by
  simp only [timerCallback, advanceCounters]
  split <;> rfl

@[simp] theorem timerCallback_message : (timerCallback stray s).message = s.message := by
  simp only [timerCallback, advanceCounters]
  split <;> rfl

@[simp] theorem timerCallback_displayQueue :
    (timerCallback stray s).displayQueue = s.displayQueue := by
  simp only [timerCallback, advanceCounters]
  split <;> rfl

@[simp] theorem timerCallback_received : (timerCallback stray s).received = s.received := by
  simp only [timerCallback, advanceCounters]
  split <;> rfl

@[simp] theorem timerCallback_duty :
    (timerCallback stray s).duty = bitDuty (currentBit stray s) := by
  simp only [timerCallback, advanceCounters]
  split <;> rfl

end Fields

theorem step_callback {s t : State} {stray : UInt8} (h : step s (.callback stray) = some t) :
    s.timerRunning = true ∧ t = timerCallback stray s := by
  simp only [step, Option.ite_none_right_eq_some, Option.some.injEq] at h
  exact ⟨h.1, h.2.symm⟩

theorem step_enqueue {s t : State} {b : MsgBuffer} (h : step s (.enqueue b) = some t) :
    s.displayQueue.length < displayQueueLen ∧
      t = { s with displayQueue := s.displayQueue ++ [b] } := by
  simp only [step, Option.map_eq_some_iff] at h
  obtain ⟨q, hq, rfl⟩ := h
  obtain ⟨hlen, rfl⟩ := xQueueSend_eq_some.mp hq
  exact ⟨hlen, rfl⟩

/-! ### What one statement of the task does to the counters, and to the queue -/

def SameCounters (s t : State) : Prop :=
  t.txLen = s.txLen ∧ t.txByteIndex = s.txByteIndex ∧ t.txBitIndex = s.txBitIndex

theorem taskStep_counters {s t : State} (h : taskStep s = some t) :
    (s.pc = .setTxLen ∧ t = { s with txLen := int32 s.received.length, pc := .setTxByteIndex }) ∨
      (s.pc = .setTxByteIndex ∧ t = { s with txByteIndex := 0, pc := .setTxBitIndex }) ∨
      (s.pc = .setTxBitIndex ∧ t = { s with txBitIndex := 0, pc := .memcpyMessage }) ∨
      (s.pc ≠ .setTxByteIndex ∧ t.pc ≠ .setTxByteIndex ∧ SameCounters s t) := by
  cases hpc : s.pc
  all_goals simp only [taskStep, hpc, espTimerStartPeriodic, espTimerStop] at h
  case setTxLen => exact .inl ⟨rfl, (Option.some.inj h).symm⟩
  case setTxByteIndex => exact .inr (.inl ⟨rfl, (Option.some.inj h).symm⟩)
  case setTxBitIndex => exact .inr (.inr (.inl ⟨rfl, (Option.some.inj h).symm⟩))
  case aborted => exact absurd h (by simp)
  all_goals
    refine .inr (.inr (.inr ⟨TaskPc.noConfusion, ?_⟩))
  case popBuffer =>
    split at h
    · exact absurd h (by simp)
    · obtain rfl := Option.some.inj h
      exact ⟨TaskPc.noConfusion, rfl, rfl, rfl⟩
  case testTxLen | startTimerBoot | startTimer | stopTimer =>
    obtain rfl := Option.some.inj h
    split <;> simp [SameCounters, hpc]
  all_goals
    obtain rfl := Option.some.inj h
    exact ⟨TaskPc.noConfusion, rfl, rfl, rfl⟩

theorem taskStep_queue {s t : State} (h : taskStep s = some t) :
    (t.displayQueue = s.displayQueue ∧ (t.received = s.received ∨ t.received = [])) ∨
      s.displayQueue = t.received :: t.displayQueue := by
  cases hpc : s.pc
  all_goals simp only [taskStep, hpc, espTimerStartPeriodic, espTimerStop] at h
  case aborted => exact absurd h (by simp)
  case popBuffer =>
    cases hq : s.displayQueue with
    | nil => simp [hq] at h
    | cons b q =>
        simp only [hq] at h
        obtain rfl := Option.some.inj h
        exact .inr rfl
  case testTxLen | startTimerBoot | startTimer | stopTimer =>
    obtain rfl := Option.some.inj h
    split <;> exact .inl ⟨rfl, .inl rfl⟩
  case freeBuffer =>
    obtain rfl := Option.some.inj h
    exact .inl ⟨rfl, .inr rfl⟩
  all_goals
    obtain rfl := Option.some.inj h
    exact .inl ⟨rfl, .inl rfl⟩

/-! ### The counters after a callback -/

/-- Away from the end of a byte only the bit counter moves. -/
theorem timerCallback_within (stray : UInt8) {s : State}
    (lo : 0 ≤ s.txBitIndex) (hi : s.txBitIndex < 7) :
    (timerCallback stray s).txBitIndex = s.txBitIndex + 1 ∧
      (timerCallback stray s).txByteIndex = s.txByteIndex ∧
      (timerCallback stray s).txLen = s.txLen := by
  have hnext : int32 (s.txBitIndex + 1) = s.txBitIndex + 1 := int32_of_bounds (by omega) (by omega)
  simp only [timerCallback, advanceCounters, hnext]
  rw [if_neg (by omega)]
  exact ⟨rfl, rfl, rfl⟩

/-- The last bit of a byte moves on to the next byte. -/
theorem timerCallback_last (stray : UInt8) {s : State} (h : s.txBitIndex = 7) :
    (timerCallback stray s).txBitIndex = 0 ∧
      (timerCallback stray s).txByteIndex = int32 (s.txByteIndex + 1) ∧
      (timerCallback stray s).txLen = int32 (s.txLen - 1) := by
  have hnext : int32 (s.txBitIndex + 1) = 8 := by rw [h]; decide
  simp only [timerCallback, advanceCounters, hnext]
  exact ⟨rfl, rfl, rfl⟩

/-! ### The timer is started and stopped in turn -/

/-- Where the task is when the periodic timer runs. -/
def timerOn : TaskPc → Bool
  | .testTxLen | .setDutyOff | .updateDutyOff | .stopTimer | .logBegin | .freeBuffer => true
  | _ => false

/-- The timer runs exactly where the task believes it does, so no `ESP_ERROR_CHECK` fires. -/
structure TimerAgrees (s : State) : Prop where
  running : s.timerRunning = timerOn s.pc
  live : s.pc ≠ .aborted

theorem timerAgrees_boot (memory : Nat → UInt8) : TimerAgrees (boot memory) :=
  ⟨rfl, TaskPc.noConfusion⟩

theorem taskStep_timerAgrees {s t : State} (hs : TimerAgrees s) (h : taskStep s = some t) :
    TimerAgrees t := by
  obtain ⟨hrun, hlive⟩ := hs
  cases hpc : s.pc
  all_goals simp only [taskStep, hpc, espTimerStartPeriodic, espTimerStop] at h
  all_goals simp only [hpc, timerOn] at hrun
  case aborted => exact absurd hpc hlive
  case popBuffer =>
    split at h
    · exact absurd h (by simp)
    · obtain rfl := Option.some.inj h
      exact ⟨hrun, TaskPc.noConfusion⟩
  case testTxLen =>
    obtain rfl := Option.some.inj h
    split
    · exact ⟨hrun, TaskPc.noConfusion⟩
    · exact ⟨by rw [hrun, hpc]; rfl, hlive⟩
  case startTimerBoot | startTimer | stopTimer =>
    simp only [hrun] at h
    obtain rfl := Option.some.inj h
    exact ⟨rfl, TaskPc.noConfusion⟩
  all_goals
    obtain rfl := Option.some.inj h
    exact ⟨hrun, TaskPc.noConfusion⟩

theorem step_timerAgrees (s : State) (l : Label) (t : State) (hs : TimerAgrees s)
    (h : step s l = some t) : TimerAgrees t := by
  cases l with
  | task => exact taskStep_timerAgrees hs h
  | callback stray =>
      obtain ⟨_, rfl⟩ := step_callback h
      exact ⟨by simpa using hs.running, by simpa using hs.live⟩
  | enqueue b =>
      obtain ⟨_, rfl⟩ := step_enqueue h
      exact ⟨hs.running, hs.live⟩

/-- No run of the transmitter stops in a failed `ESP_ERROR_CHECK`. -/
theorem always_timerAgrees (memory : Nat → UInt8) (ls : List Label) :
    StepSystem.Always step TimerAgrees (boot memory) ls :=
  StepSystem.always_of_invariant (fun _ h => h) step_timerAgrees (timerAgrees_boot memory) ls

/-! ### The array bound of `message[]` -/

/-- Nothing behind the array has been written. -/
def Untouched (memory : Nat → UInt8) (s : State) : Prop :=
  ∀ i, maxMessageLen ≤ i → s.message i = memory i

/-- The buffers that are on their way to `message[]` are no longer than the array. -/
structure WithinArray (memory : Nat → UInt8) (s : State) : Prop where
  queued : ∀ b ∈ s.displayQueue, b.length ≤ maxMessageLen
  received : s.received.length ≤ maxMessageLen
  untouched : Untouched memory s

theorem untouched_writeAt {memory message : Nat → UInt8} {off : Nat} {xs : List UInt8}
    (hlen : off + xs.length ≤ maxMessageLen) (h : ∀ i, maxMessageLen ≤ i → message i = memory i) :
    ∀ i, maxMessageLen ≤ i → writeAt message off xs i = memory i := by
  intro i hi
  rw [writeAt_of_ge message xs (Nat.le_trans hlen hi)]
  exact h i hi

theorem taskStep_untouched {memory : Nat → UInt8} {s t : State} (hs : WithinArray memory s)
    (h : taskStep s = some t) : Untouched memory t := by
  obtain ⟨_, received, untouched⟩ := hs
  have zeroes_fit : 0 + (List.replicate maxMessageLen (0 : UInt8)).length ≤ maxMessageLen := by
    simp
  cases hpc : s.pc
  all_goals simp only [taskStep, hpc, espTimerStartPeriodic, espTimerStop] at h
  case aborted => exact absurd h (by simp)
  case popBuffer =>
    split at h
    · exact absurd h (by simp)
    · obtain rfl := Option.some.inj h
      exact untouched
  case initalizeMessage =>
    obtain rfl := Option.some.inj h
    exact untouched_writeAt (by decide) (untouched_writeAt zeroes_fit untouched)
  case memsetMessage =>
    obtain rfl := Option.some.inj h
    exact untouched_writeAt zeroes_fit untouched
  case memcpyMessage =>
    obtain rfl := Option.some.inj h
    have hcopied : 0 + (s.received.take s.txLen.toNat).length ≤ maxMessageLen := by
      rw [Nat.zero_add]
      exact Nat.le_trans (List.length_take_le' _ _) received
    exact untouched_writeAt hcopied untouched
  case testTxLen | startTimerBoot | startTimer | stopTimer =>
    obtain rfl := Option.some.inj h
    split <;> exact untouched
  all_goals
    obtain rfl := Option.some.inj h
    exact untouched

theorem withinArray_step {memory : Nat → UInt8} (s : State) (l : Label) (t : State)
    (hs : WithinArray memory s) (hl : ∀ b, l = .enqueue b → b.length ≤ maxMessageLen)
    (h : step s l = some t) : WithinArray memory t := by
  cases l with
  | task =>
      refine ⟨?_, ?_, taskStep_untouched hs h⟩
      · rcases taskStep_queue h with ⟨hq, _⟩ | hq
        · exact hq ▸ hs.queued
        · exact fun b hb => hs.queued b (hq ▸ List.mem_cons_of_mem _ hb)
      · rcases taskStep_queue h with ⟨_, hr | hr⟩ | hq
        · exact hr ▸ hs.received
        · simp [hr]
        · exact hs.queued _ (hq ▸ List.mem_cons_self)
  | callback stray =>
      obtain ⟨_, rfl⟩ := step_callback h
      exact ⟨by simpa using hs.queued, by simpa using hs.received,
        by simpa [Untouched] using hs.untouched⟩
  | enqueue b =>
      obtain ⟨_, rfl⟩ := step_enqueue h
      refine ⟨?_, hs.received, hs.untouched⟩
      intro c hc
      rcases List.mem_append.mp hc with hc | hc
      · exact hs.queued c hc
      · obtain rfl := List.mem_singleton.mp hc
        exact hl c rfl

/-- As long as every enqueued buffer fits, no `memcpy` writes behind `message[]`. -/
theorem always_untouched (memory : Nat → UInt8) {ls : List Label}
    (hfits : ∀ l ∈ ls, ∀ b, l = .enqueue b → b.length ≤ maxMessageLen) :
    StepSystem.Always step (Untouched memory) (boot memory) ls := by
  have hboot : WithinArray memory (boot memory) := by
    refine ⟨by simp [boot], by simp [boot], ?_⟩
    intro i hi
    have hlen : 0 + (List.replicate maxMessageLen (0 : UInt8)).length ≤ i := by simpa using hi
    exact writeAt_of_ge memory _ hlen
  exact StepSystem.always_of_eachStep (fun _ h => h.untouched) withinArray_step hboot
    (StepSystem.eachStep_of_forall_mem hfits)

end InfoGlobe.IrLedTask
