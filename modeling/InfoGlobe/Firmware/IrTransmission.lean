import InfoGlobe.Firmware.IrCounters
import InfoGlobe.Library.FifoSender

/-!
Transmission refines the machine that sends queued messages in order. The three shared counters
say how many LED settings of the current buffer have been made, whatever late callbacks of earlier
sessions left in them, because the task resets all of them while the timer stands still.
-/

namespace InfoGlobe.IrLedTask
open StepSystem FlatMemory MachineInt BitOrder FifoSender

/-- The LED settings that transmit a buffer: a 1 bit is duty 0, a 0 bit the carrier. -/
def ledSettings (b : MsgBuffer) : List Nat := (bits b).map bitDuty

/-- What can be seen of a step: a buffer enters the queue, bytes are copied into `message[]`, or a
callback sets the duty of the LED. -/
def observeLed (s : State) : Label → List (Event MsgBuffer Nat)
  | .task => if s.pc = .memcpyMessage then [.loaded (s.received.take s.txLen.toNat)] else []
  | .callback stray => [.emitted (timerCallback stray s).duty]
  | .enqueue b => [.enqueued b]

/-- `n` settings of `b` have been made since it was loaded. -/
structure Sends (b : MsgBuffer) (n : Nat) (s : State) : Prop where
  size : b.length ≤ maxMessageLen
  bit : s.txBitIndex = (n % 8 : Nat)
  byte : s.txByteIndex = (n / 8 : Nat)
  len : s.txLen = (b.length : Int) - (n / 8 : Nat)
  loaded : readAt s.message 0 b.length = b

@[simp] theorem length_ledSettings (b : MsgBuffer) : (ledSettings b).length = 8 * b.length := by
  simp [ledSettings]

/-! ### One callback of a session -/

section Callback
variable {b : MsgBuffer} {n : Nat} {s : State} {stray : UInt8}

theorem Sends.txLen_pos (h : Sends b n s) (hn : n < 8 * b.length) : 0 < s.txLen := by
  have hlen := h.len
  omega

theorem Sends.duty (h : Sends b n s) (hn : n < 8 * b.length) :
    (ledSettings b)[n]? = some (timerCallback stray s).duty := by
  have hk : n / 8 < b.length := by omega
  have hmax : (maxMessageLen : Int) = 32 := rfl
  have hsize : b.length ≤ 32 := h.size
  have hbyte : b[n / 8]? = some (s.message (n / 8)) := by
    have hread := getElem?_readAt s.message 0 b.length (n / 8) hk
    rwa [h.loaded, Nat.zero_add] at hread
  have hinside : 0 ≤ s.txByteIndex ∧ s.txByteIndex < maxMessageLen := by
    rw [h.byte]
    omega
  have hcurrent : currentByte stray s = s.message (n / 8) := by
    rw [currentByte, if_pos hinside, h.byte, Int.toNat_natCast]
  have hbit : currentBit stray s = bitMsb (s.message (n / 8)) (n % 8) := by
    rw [currentBit, hcurrent, h.bit, Int.toNat_natCast]
  rw [ledSettings, List.getElem?_map, getElem?_bits, hbyte, timerCallback_duty, hbit]
  rfl

theorem Sends.next (h : Sends b n s) (hn : n < 8 * b.length) :
    Sends b (n + 1) (timerCallback stray s) := by
  obtain ⟨size, bit, byte, len, loaded⟩ := h
  have hsize : b.length ≤ 32 := size
  by_cases h7 : n % 8 = 7
  · obtain ⟨hbit, hbyte, hlen⟩ := timerCallback_last stray (by rw [bit, h7]; rfl)
    rw [int32_of_bounds (by omega) (by omega)] at hbyte hlen
    exact ⟨size, by omega, by omega, by omega, by rwa [timerCallback_message]⟩
  · obtain ⟨hbit, hbyte, hlen⟩ :=
      timerCallback_within stray (s := s) (by omega) (by omega)
    exact ⟨size, by omega, by omega, by omega, by rwa [timerCallback_message]⟩

end Callback

/-! ### The refinement relation -/

/-- Between the pop and the copy the task holds the head of the abstract queue. -/
def holding : TaskPc → Bool
  | .delay | .printBuffer | .memsetMessage | .setTxLen | .setTxByteIndex | .setTxBitIndex
  | .memcpyMessage => true
  | _ => false

def pending (s : State) : List MsgBuffer :=
  if holding s.pc then s.received :: s.displayQueue else s.displayQueue

/-- Where the task can be while bits of the loaded buffer are still to be sent. -/
def inSession : TaskPc → Bool
  | .startTimer | .logBegin | .freeBuffer | .testTxLen => true
  | _ => false

/-- What the reset statements before the current one have established. -/
def Loading (s : State) : Prop :=
  match s.pc with
  | .setTxByteIndex => s.txLen = s.received.length
  | .setTxBitIndex => s.txLen = s.received.length ∧ s.txByteIndex = 0
  | .memcpyMessage => s.txLen = s.received.length ∧ s.txByteIndex = 0 ∧ s.txBitIndex = 0
  | _ => True

structure Refines (s : State) (a : FifoSender.State MsgBuffer Nat) : Prop where
  agrees : TimerAgrees s
  queue : a.queue = pending s
  sized : ∀ b ∈ pending s, b.length ≤ maxMessageLen
  loading : Loading s
  session : a.remaining = [] ∨ inSession s.pc = true ∧
    ∃ b n, n < 8 * b.length ∧ Sends b n s ∧ a.remaining = (ledSettings b).drop n

/-- Nothing is left to be sent when the task is outside of a session. -/
theorem Refines.remaining_nil {s : State} {a : FifoSender.State MsgBuffer Nat} (h : Refines s a)
    (hout : inSession s.pc = false) : a.remaining = [] :=
  h.session.resolve_right fun hin => absurd (hin.1.symm.trans hout) (by simp)

theorem refines_boot (memory : Nat → UInt8) : Refines (boot memory) initial where
  agrees := timerAgrees_boot memory
  queue := rfl
  sized := by simp [pending, boot, holding]
  loading := trivial
  session := .inl rfl

/-- The matching condition of a simulation step. -/
def Matched (s : State) (a : FifoSender.State MsgBuffer Nat) (l : Label) (t : State) : Prop :=
  ∃ as a', run (FifoSender.step ledSettings) a as = some a' ∧
    trace (FifoSender.step ledSettings) observe a as = observeLed s l ∧ Refines t a'

theorem matched_enqueue {s t : State} {a : FifoSender.State MsgBuffer Nat} {b : MsgBuffer}
    (h : Refines s a) (hb : Sized (.enqueue b)) (hstep : step s (.enqueue b) = some t) :
    Matched s a (.enqueue b) t := by
  have agrees' := step_timerAgrees s _ t h.agrees hstep
  obtain ⟨_, rfl⟩ := step_enqueue hstep
  have hpending : pending { s with displayQueue := s.displayQueue ++ [b] } = pending s ++ [b] := by
    simp only [pending]
    split <;> rfl
  refine ⟨[.enqueue b], { a with queue := a.queue ++ [b] }, rfl, rfl, agrees', ?_, ?_, h.loading, ?_⟩
  · rw [hpending, h.queue]
  · intro c hc
    rw [hpending] at hc
    rcases List.mem_append.mp hc with hc | hc
    · exact h.sized c hc
    · obtain rfl := List.mem_singleton.mp hc
      exact hb.2
  · rcases h.session with hnil | ⟨hpc, c, n, hn, hsends, hrem⟩
    · exact .inl hnil
    · exact .inr ⟨hpc, c, n, hn, ⟨hsends.size, hsends.bit, hsends.byte, hsends.len, hsends.loaded⟩,
        hrem⟩

theorem matched_callback {s : State} {a : FifoSender.State MsgBuffer Nat} {stray : UInt8}
    (h : Refines s a) (hrun : s.timerRunning = true) :
    Matched s a (.callback stray) (timerCallback stray s) := by
  have agrees' : TimerAgrees (timerCallback stray s) :=
    ⟨by simpa using h.agrees.running, by simpa using h.agrees.live⟩
  have hpending : pending (timerCallback stray s) = pending s := by simp [pending]
  have hloading : Loading (timerCallback stray s) := by
    -- the timer stands still while the counters are being reset
    have hon : timerOn s.pc = true := h.agrees.running ▸ hrun
    cases hpc : s.pc <;> simp_all [Loading, timerOn]
  obtain ⟨queue, remaining⟩ := a
  obtain ⟨_, hqueue, sized, _, session⟩ := h
  have sized' : ∀ b ∈ pending (timerCallback stray s), b.length ≤ maxMessageLen := by
    rwa [hpending]
  rcases session with hnil | ⟨hpc, b, n, hn, hsends, hrem⟩
  · obtain rfl : remaining = [] := hnil
    exact ⟨[.filler (timerCallback stray s).duty], ⟨queue, []⟩, rfl, rfl, agrees',
      hqueue.trans hpending.symm, sized', hloading, .inl rfl⟩
  · have hhead : (ledSettings b).drop n =
        (timerCallback stray s).duty :: (ledSettings b).drop (n + 1) := by
      rw [List.drop_eq_getElem_cons (by simpa using hn)]
      congr 1
      exact Option.some.inj ((List.getElem?_eq_getElem _).symm.trans (hsends.duty hn))
    obtain rfl : remaining = _ := hrem.trans hhead
    refine ⟨[.emit], ⟨queue, (ledSettings b).drop (n + 1)⟩, rfl, rfl, agrees',
      hqueue.trans hpending.symm, sized', hloading, ?_⟩
    by_cases hlast : n + 1 < 8 * b.length
    · exact .inr ⟨by simpa using hpc, b, n + 1, hlast, hsends.next hn, rfl⟩
    · exact .inl (List.drop_of_length_le (by simpa using Nat.le_of_not_lt hlast))

/-- The copy loads the buffer and starts its session with no setting made. -/
theorem matched_memcpy {s t : State} {a : FifoSender.State MsgBuffer Nat} (h : Refines s a)
    (hpc : s.pc = .memcpyMessage) (hstep : taskStep s = some t) : Matched s a .task t := by
  have agrees' := taskStep_timerAgrees h.agrees hstep
  simp only [taskStep, hpc] at hstep
  obtain rfl := Option.some.inj hstep
  have hnil := h.remaining_nil (by rw [hpc]; rfl)
  obtain ⟨queue, remaining⟩ := a
  obtain ⟨_, hqueue, sized, loading, _⟩ := h
  simp only [Loading, hpc] at loading
  obtain ⟨hlen, hbyte, hbit⟩ := loading
  have hpending : pending s = s.received :: s.displayQueue := by simp [pending, holding, hpc]
  have hcopied : s.received.take s.txLen.toNat = s.received := by simp [hlen]
  rw [hpending] at hqueue sized
  subst hnil
  obtain rfl : queue = s.received :: s.displayQueue := hqueue
  refine ⟨[.load], ⟨s.displayQueue, ledSettings s.received⟩, rfl, ?_, agrees', rfl, ?_, trivial, ?_⟩
  · simp only [observeLed, hpc, if_true, hcopied]
    rfl
  · exact fun b hb => sized b (List.mem_cons_of_mem _ hb)
  · by_cases hempty : s.received = []
    · exact .inl (by simp [hempty, ledSettings])
    · have hpos : 0 < s.received.length := List.length_pos_iff.mpr hempty
      refine .inr ⟨rfl, s.received, 0, by omega,
        ⟨sized _ List.mem_cons_self, hbit, hbyte, ?_, ?_⟩, rfl⟩
      · simpa using hlen
      · simp only [hcopied]
        exact readAt_writeAt s.message 0 s.received

/-- Every other statement of the task is invisible to the abstract machine. -/
theorem refines_task {s t : State} {a : FifoSender.State MsgBuffer Nat} (h : Refines s a)
    (hpc : s.pc ≠ .memcpyMessage) (hstep : taskStep s = some t) : Refines t a := by
  have agrees' := taskStep_timerAgrees h.agrees hstep
  have hidle := h.remaining_nil
  obtain ⟨agrees, hqueue, sized, loading, session⟩ := h
  have hrun := agrees.running
  cases hs : s.pc
  all_goals simp only [taskStep, hs, espTimerStartPeriodic, espTimerStop] at hstep
  all_goals simp only [hs, timerOn] at hrun
  all_goals simp only [pending, holding, hs] at hqueue sized
  all_goals simp only [Loading, hs] at loading
  case memcpyMessage => exact absurd hs hpc
  case aborted => exact absurd hs agrees.live
  case popBuffer =>
    cases hq : s.displayQueue with
    | nil => simp [hq] at hstep
    | cons b q =>
        simp only [hq] at hstep
        obtain rfl := Option.some.inj hstep
        have hnil := hidle (by rw [hs]; rfl)
        rw [hq] at hqueue sized
        exact ⟨agrees', hqueue, sized, trivial, .inl hnil⟩
  case testTxLen =>
    by_cases hzero : s.txLen = 0
    · -- the counter is 0, so nothing of the buffer is left
      rw [if_pos hzero] at hstep
      obtain rfl := Option.some.inj hstep
      refine ⟨agrees', hqueue, sized, trivial, .inl (session.resolve_right ?_)⟩
      rintro ⟨_, b, n, hn, hsends, _⟩
      have := hsends.txLen_pos hn
      omega
    · rw [if_neg hzero] at hstep
      obtain rfl := Option.some.inj hstep
      refine ⟨agrees', ?_, ?_, ?_, session⟩
      · simpa [pending, holding, hs] using hqueue
      · simpa [pending, holding, hs] using sized
      · simp [Loading, hs]
  case setTxLen =>
    obtain rfl := Option.some.inj hstep
    have hnil := hidle (by rw [hs]; rfl)
    have hsize : s.received.length ≤ 32 := sized s.received (by simp)
    have hlen : int32 s.received.length = s.received.length :=
      int32_of_bounds (by omega) (by omega)
    exact ⟨agrees', hqueue, sized, by simpa only [Loading] using hlen, .inl hnil⟩
  case setTxByteIndex =>
    obtain rfl := Option.some.inj hstep
    have hnil := hidle (by rw [hs]; rfl)
    exact ⟨agrees', hqueue, sized, ⟨loading, rfl⟩, .inl hnil⟩
  case setTxBitIndex =>
    obtain rfl := Option.some.inj hstep
    have hnil := hidle (by rw [hs]; rfl)
    exact ⟨agrees', hqueue, sized, ⟨loading.1, loading.2, rfl⟩, .inl hnil⟩
  case startTimer | logBegin | freeBuffer =>
    try simp only [hrun] at hstep
    obtain rfl := Option.some.inj hstep
    refine ⟨agrees', hqueue, sized, trivial, ?_⟩
    rcases session with hnil | ⟨_, b, n, hn, hsends, hrem⟩
    · exact .inl hnil
    · exact .inr ⟨rfl, b, n, hn,
        ⟨hsends.size, hsends.bit, hsends.byte, hsends.len, hsends.loaded⟩, hrem⟩
  all_goals
    try simp only [hrun] at hstep
    obtain rfl := Option.some.inj hstep
    have hnil := hidle (by rw [hs]; rfl)
    exact ⟨agrees', hqueue, sized, trivial, .inl hnil⟩

theorem matched_step (s : State) (a : FifoSender.State MsgBuffer Nat) (l : Label) (t : State)
    (h : Refines s a) (hl : Sized l) (hstep : step s l = some t) : Matched s a l t := by
  cases l with
  | task =>
      by_cases hpc : s.pc = .memcpyMessage
      · exact matched_memcpy h hpc hstep
      · refine ⟨[], a, rfl, ?_, refines_task h hpc hstep⟩
        simp [observeLed, hpc]
  | callback stray =>
      obtain ⟨hrun, rfl⟩ := step_callback hstep
      exact matched_callback h hrun
  | enqueue b => exact matched_enqueue h hl hstep

/-- Every trace of the transmitter is a trace of the abstract sender. -/
theorem refines_fifoSender (memory : Nat → UInt8) {ls : List Label} (sized : ∀ l ∈ ls, Sized l) :
    ∃ as a, run (FifoSender.step ledSettings) initial as = some a ∧
      trace (FifoSender.step ledSettings) observe initial as =
        trace step observeLed (boot memory) ls :=
  trace_simulation (D := Sized) matched_step (refines_boot memory) sized

/-- The settings that transmit a buffer give it back when they are packed eight at a time. -/
theorem pack_ledSettings (b : MsgBuffer) : pack ((ledSettings b).map fun d => d == 0) = b := by
  have hbits : (ledSettings b).map (fun d => d == 0) = bits b := by
    rw [ledSettings, List.map_map]
    calc (bits b).map ((fun d => d == 0) ∘ bitDuty) = (bits b).map id :=
          List.map_congr_left fun bit _ => by cases bit <;> rfl
      _ = bits b := List.map_id _
  rw [hbits, pack_bits]

theorem take_of_sent {b : MsgBuffer} {settings : List Nat} (h : ledSettings b <+: settings) :
    settings.take (8 * b.length) = ledSettings b := by
  rw [← length_ledSettings b]
  exact (List.prefix_iff_eq_take.mp h).symm

/-- Every interleaving of the callbacks with the task transmits the enqueued buffers in order: the
trace is one of the abstract sender, so each loaded buffer is the next one of the queue and its
settings are complete before the next load, and packing them gives the buffer back. -/
theorem transmission_in_order (memory : Nat → UInt8) (ls : List Label)
    (sized : ∀ l ∈ ls, Sized l) :
    (∃ as, trace (FifoSender.step ledSettings) observe initial as =
        trace step observeLed (boot memory) ls) ∧
      Delivered ledSettings (trace step observeLed (boot memory) ls) ∧
      ∀ p ∈ sessions (trace step observeLed (boot memory) ls),
        8 * p.1.length ≤ p.2.length →
          pack ((p.2.take (8 * p.1.length)).map fun d => d == 0) = p.1 := by
  obtain ⟨as, _, _, htrace⟩ := refines_fifoSender memory sized
  have delivered : Delivered ledSettings (trace step observeLed (boot memory) ls) :=
    htrace ▸ trace_delivered ledSettings as
  refine ⟨⟨as, htrace⟩, delivered, ?_⟩
  intro p hp hfull
  have hsent : ledSettings p.1 <+: p.2 := by
    obtain ⟨_, earlier, current⟩ := delivered
    cases hs : sessions (trace step observeLed (boot memory) ls) with
    | nil => simp [hs] at hp
    | cons q ss =>
        rw [hs] at hp earlier current
        rcases List.mem_cons.mp hp with rfl | hp
        · rcases current p rfl with h | h
          · exact h
          · -- the newest session is complete as well
            have hlen : (ledSettings p.1).length ≤ p.2.length := by simpa using hfull
            exact (h.eq_of_length_le hlen) ▸ List.prefix_refl _
        · exact earlier p hp
  rw [take_of_sent hsent, pack_ledSettings]

theorem transmission_in_order_session :
    Delivered ledSettings
      (trace step observeLed (boot fun _ => 0) (sessionRun [0xa5, 0x3c] ++ [.callback 0])) :=
  (transmission_in_order (fun _ => 0) _ (by decide)).2.1

end InfoGlobe.IrLedTask
