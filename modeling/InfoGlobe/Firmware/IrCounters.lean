import InfoGlobe.Firmware.IrLedTask

/-!
The shared counters of the transmitter. The callback keeps counting while the task is on its way
from its test of `tx_len` to `esp_timer_stop`, at the end of every session and at boot, so the
counters stay in range exactly in the runs in which no callback comes too late in that window.
-/

namespace InfoGlobe.IrLedTask
open StepSystem FlatMemory MachineInt

structure InRange (s : State) : Prop where
  txLen_nonneg : 0 ≤ s.txLen
  txBitIndex_nonneg : 0 ≤ s.txBitIndex
  txBitIndex_lt : s.txBitIndex < 8

/-- A callback reads `message[tx_byte_index]` inside the array. -/
def ReadsInside (s : State) : Label → Prop
  | .callback _ => 0 ≤ s.txByteIndex ∧ s.txByteIndex < maxMessageLen
  | _ => True

/-- No callback runs on the value 0 that the task polls for, when it is the eighth one there or
when the message that has just ended filled the array. -/
def NotTooLate (s : State) : Label → Prop
  | .callback _ => ¬(s.txLen = 0 ∧ (s.txBitIndex = 7 ∨ s.txByteIndex = maxMessageLen))
  | _ => True

/-- The buffers other tasks enqueue fit into `message[]`. -/
def Sized : Label → Prop
  | .enqueue b => 1 ≤ b.length ∧ b.length ≤ maxMessageLen
  | _ => True

instance : DecidablePred Sized
  | .task | .callback _ => isTrue trivial
  | .enqueue b => inferInstanceAs (Decidable (1 ≤ b.length ∧ b.length ≤ maxMessageLen))

instance (s : State) : DecidablePred (NotTooLate s)
  | .task | .enqueue _ => isTrue trivial
  | .callback _ => inferInstanceAs (Decidable (¬(_ ∧ _)))

/-- `tx_byte_index + tx_len` is at most the size of the message, except between the two statements
that reset them. -/
structure Counting (s : State) : Prop where
  agrees : TimerAgrees s
  queued : ∀ b ∈ s.displayQueue, b.length ≤ maxMessageLen
  received : s.received.length ≤ maxMessageLen
  inRange : InRange s
  txLen_le : s.txLen ≤ maxMessageLen
  txByteIndex_nonneg : 0 ≤ s.txByteIndex
  total : s.pc ≠ .setTxByteIndex → s.txByteIndex + s.txLen ≤ maxMessageLen

theorem counting_boot (memory : Nat → UInt8) : Counting (boot memory) where
  agrees := timerAgrees_boot memory
  queued := by simp [boot]
  received := Nat.zero_le _
  inRange := ⟨by simp [boot], by simp [boot], by simp [boot]⟩
  txLen_le := by simp [boot]
  txByteIndex_nonneg := by simp [boot]
  total := by simp [boot]

theorem counting_callback {s : State} {stray : UInt8} (hs : Counting s)
    (hrun : s.timerRunning = true) (hlate : NotTooLate s (.callback stray)) :
    Counting (timerCallback stray s) := by
  obtain ⟨agrees, queued, received, ⟨hlen, hlo, hhi⟩, hle, hbyte, total⟩ := hs
  have hpc : s.pc ≠ .setTxByteIndex := by
    intro h
    have := agrees.running
    rw [hrun, h] at this
    exact absurd this (by decide)
  have hsum := total hpc
  have hmax : (maxMessageLen : Int) = 32 := rfl
  have agrees' : TimerAgrees (timerCallback stray s) :=
    ⟨by simpa using agrees.running, by simpa using agrees.live⟩
  have queued' : ∀ b ∈ (timerCallback stray s).displayQueue, b.length ≤ maxMessageLen := by
    simpa using queued
  have received' : (timerCallback stray s).received.length ≤ maxMessageLen := by
    simpa using received
  by_cases h7 : s.txBitIndex = 7
  · -- the end of a byte: `NotTooLate` leaves `0 < tx_len`
    have hpos : 0 < s.txLen := by
      rcases Int.lt_or_le 0 s.txLen with h | h
      · exact h
      · exact absurd ⟨by omega, .inl h7⟩ hlate
    obtain ⟨hbit', hbyte', hlen'⟩ := timerCallback_last stray h7
    rw [int32_of_bounds (by omega) (by omega)] at hbyte' hlen'
    refine ⟨agrees', queued', received', ⟨?_, ?_, ?_⟩, ?_, ?_, fun _ => ?_⟩ <;>
      simp only [hbit', hbyte', hlen'] <;> omega
  · obtain ⟨hbit', hbyte', hlen'⟩ :=
      timerCallback_within stray hlo (by omega : s.txBitIndex < 7)
    refine ⟨agrees', queued', received', ⟨?_, ?_, ?_⟩, ?_, ?_, fun _ => ?_⟩ <;>
      simp only [hbit', hbyte', hlen'] <;> omega

theorem counting_task {s t : State} (hs : Counting s) (h : taskStep s = some t) : Counting t := by
  have agrees' : TimerAgrees t := taskStep_timerAgrees hs.agrees h
  obtain ⟨_, queued, received, ⟨hlen, hlo, hhi⟩, hle, hbyte, total⟩ := hs
  have hmax : (maxMessageLen : Int) = 32 := rfl
  have hbuffers : (∀ b ∈ t.displayQueue, b.length ≤ maxMessageLen) ∧
      t.received.length ≤ maxMessageLen := by
    rcases taskStep_queue h with ⟨hq, hr | hr⟩ | hq
    · exact ⟨hq ▸ queued, hr ▸ received⟩
    · exact ⟨hq ▸ queued, by simp [hr]⟩
    · rw [hq] at queued
      exact ⟨fun b hb => queued b (List.mem_cons_of_mem _ hb), queued _ List.mem_cons_self⟩
  obtain ⟨queued', received'⟩ := hbuffers
  rcases taskStep_counters h with ⟨_, rfl⟩ | ⟨hpc, rfl⟩ | ⟨hpc, rfl⟩ | ⟨hpc, _, hl, hb, hbi⟩
  · have hsize : int32 s.received.length = s.received.length :=
      int32_of_bounds (by omega) (by omega)
    refine ⟨agrees', queued', received', ⟨?_, hlo, hhi⟩, ?_, hbyte, fun hne => absurd rfl hne⟩
    · simp only [hsize]
      omega
    · simp only [hsize]
      omega
  · exact ⟨agrees', queued', received', ⟨hlen, hlo, hhi⟩, hle, Int.le_refl 0,
      fun _ => by simpa using hle⟩
  · have hsum := total (by rw [hpc]; exact TaskPc.noConfusion)
    exact ⟨agrees', queued', received', ⟨hlen, Int.le_refl 0, by simp⟩, hle, hbyte, fun _ => hsum⟩
  · have hsum := total hpc
    refine ⟨agrees', queued', received', ⟨?_, ?_, ?_⟩, ?_, ?_, fun _ => ?_⟩
    all_goals simp only [hl, hb, hbi]
    all_goals assumption

theorem counting_step (s : State) (l : Label) (t : State) (hs : Counting s) (hl : Sized l)
    (hlate : NotTooLate s l) (h : step s l = some t) : Counting t := by
  cases l with
  | task => exact counting_task hs h
  | callback stray =>
      obtain ⟨hrun, rfl⟩ := step_callback h
      exact counting_callback hs hrun hlate
  | enqueue b =>
      have agrees' := step_timerAgrees s _ t hs.agrees h
      obtain ⟨_, rfl⟩ := step_enqueue h
      have ⟨hlen, hlo, hhi⟩ := hs.inRange
      refine ⟨agrees', ?_, hs.received, ⟨hlen, hlo, hhi⟩, hs.txLen_le, hs.txByteIndex_nonneg,
        hs.total⟩
      intro c hc
      rcases List.mem_append.mp hc with hc | hc
      · exact hs.queued c hc
      · obtain rfl := List.mem_singleton.mp hc
        exact hl.2

theorem readsInside_of_counting (s : State) (l : Label) (t : State) (hs : Counting s)
    (hlate : NotTooLate s l) (h : step s l = some t) : ReadsInside s l := by
  cases l with
  | task | enqueue _ => trivial
  | callback stray =>
      obtain ⟨hrun, _⟩ := step_callback h
      have hpc : s.pc ≠ .setTxByteIndex := by
        intro hpc
        have := hs.agrees.running
        rw [hrun, hpc] at this
        exact absurd this (by decide)
      have hsum := hs.total hpc
      have hlen := hs.inRange.txLen_nonneg
      refine ⟨hs.txByteIndex_nonneg, ?_⟩
      rcases Int.lt_or_le s.txByteIndex maxMessageLen with hlt | hge
      · exact hlt
      · exact absurd ⟨by omega, .inr (by omega)⟩ hlate

/-- A callback that comes too late either reads behind the array or makes `tx_len` negative. -/
theorem notTooLate_of_good (s : State) (l : Label) (t : State) (_ : Counting s)
    (h : step s l = some t) (ht : InRange t) (hread : ReadsInside s l) : NotTooLate s l := by
  cases l with
  | task | enqueue _ => trivial
  | callback stray =>
      obtain ⟨_, rfl⟩ := step_callback h
      rintro ⟨hzero, h7 | hbyte⟩
      · have hlen' : (timerCallback stray s).txLen = -1 := by
          rw [(timerCallback_last stray h7).2.2, hzero]
          decide
        have := ht.txLen_nonneg
        omega
      · have := hread.2
        omega

/-- The counters stay in range and every callback reads inside `message[]` in exactly the runs in
which no callback comes too late. -/
theorem counters_in_range_iff (memory : Nat → UInt8) (ls : List Label)
    (sized : ∀ l ∈ ls, Sized l) :
    (Always step InRange (boot memory) ls ∧ EachStep step ReadsInside (boot memory) ls) ↔
      EachStep step NotTooLate (boot memory) ls :=
  always_eachStep_iff (D := Sized) (fun _ h => h.inRange) readsInside_of_counting counting_step
    notTooLate_of_good (counting_boot memory) sized

/-- One session from boot to the loop: the task loads a buffer, every bit of it is sent, and the
task sees that `tx_len` is 0. -/
def sessionRun (b : MsgBuffer) : List Label :=
  List.replicate 8 .task ++ .enqueue b :: List.replicate 12 .task ++
    List.replicate (8 * b.length) (.callback 0) ++ [.task]

/-- A full session of two bytes with a late callback that is not yet one too many. -/
theorem counters_in_range_session :
    Always step InRange (boot fun _ => 0) (sessionRun [0xa5, 0x3c] ++ [.callback 0]) ∧
      EachStep step ReadsInside (boot fun _ => 0) (sessionRun [0xa5, 0x3c] ++ [.callback 0]) :=
  (counters_in_range_iff _ _ (by decide)).mpr (by decide +kernel)

/-- After a message of full size the first late callback already reads behind the array. -/
theorem late_callback_reads_outside :
    (∀ l ∈ sessionRun (List.replicate 32 0x41) ++ [.callback 0], Sized l) ∧
      ¬EachStep step ReadsInside (boot fun _ => 0)
        (sessionRun (List.replicate 32 0x41) ++ [.callback 0]) := by
  refine ⟨by decide +kernel, fun h => ?_⟩
  have hrun : ((run step (boot fun _ => 0) (sessionRun (List.replicate 32 0x41))).map
      fun s => (s.timerRunning, s.txByteIndex)) = some (true, 32) := by decide +kernel
  obtain ⟨s, hs, hfields⟩ := Option.map_eq_some_iff.mp hrun
  obtain ⟨hon, hbyte⟩ := Prod.mk.inj hfields
  have hstep : step s (.callback 0) = some (timerCallback 0 s) := by simp [step, hon]
  have hread : ReadsInside s (.callback 0) := h.of_run hs hstep
  exact absurd hread.2 (by rw [hbyte]; decide)

end InfoGlobe.IrLedTask
