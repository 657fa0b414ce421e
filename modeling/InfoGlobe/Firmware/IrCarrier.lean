import InfoGlobe.Firmware.IrLedTask
import Mathlib.Data.List.Chain

/-!
The idle carrier. The task switches the strobe off before it stops the timer, so a callback that
runs in between and reads a 0 bit switches the carrier on again, and nothing switches it off before
the next message. Such callbacks are exactly what leaves the carrier on.
-/

namespace InfoGlobe.IrLedTask
open StepSystem

/-- While the task waits for a buffer with the timer stopped, the LED duty is 0. -/
def IdleOff (s : State) : Prop := s.pc = .popBuffer → s.timerRunning = false → s.duty = 0

inductive StrobeEvent
  | strobeOff
  | callback (bit : Bool)
  | stop
  deriving DecidableEq

/-- The statements and callbacks that touch the strobe or the timer at the end of a session. -/
def observeStrobe (s : State) : Label → List StrobeEvent
  | .task =>
      if s.pc = .setDutyOff then [.strobeOff] else if s.pc = .stopTimer then [.stop] else []
  | .callback stray => [.callback (currentBit stray s)]
  | .enqueue _ => []

/-- No `esp_timer_stop` comes directly after a callback on a 0 bit. -/
def QuietStops (t : List StrobeEvent) : Prop :=
  t.IsChain fun e f => ¬(e = .callback false ∧ f = .stop)

/-- The duty once this was the last of the events. -/
def dutyAfter : StrobeEvent → Nat
  | .strobeOff | .stop => 0
  | .callback bit => bitDuty bit

/-- Where the task is from the strobe-off to the wait for the next buffer. -/
def afterStrobeOff : TaskPc → Bool
  | .updateDutyOff | .stopTimer | .logComplete | .popBuffer => true
  | _ => false

/-- What one statement does to the duty on the way from the strobe-off to the wait. -/
theorem taskStep_strobe {s t : State} (agrees : TimerAgrees s) (h : taskStep s = some t) :
    (s.pc = .setDutyOff ∧ t.pc = .updateDutyOff ∧ t.duty = 0) ∨
      (s.pc = .updateDutyOff ∧ t.pc = .stopTimer ∧ t.duty = s.duty) ∨
      (s.pc = .stopTimer ∧ t.pc = .logComplete ∧ t.duty = s.duty) ∨
      (s.pc = .logComplete ∧ t.pc = .popBuffer ∧ t.duty = s.duty) ∨
      (s.pc ≠ .setDutyOff ∧ s.pc ≠ .stopTimer ∧ afterStrobeOff t.pc = false) := by
  have hrun := agrees.running
  cases hs : s.pc
  all_goals simp only [taskStep, hs, espTimerStartPeriodic, espTimerStop] at h
  all_goals simp only [hs, timerOn] at hrun
  case aborted => exact absurd h (by simp)
  case setDutyOff =>
    obtain rfl := Option.some.inj h
    exact .inl ⟨rfl, rfl, rfl⟩
  case updateDutyOff =>
    obtain rfl := Option.some.inj h
    exact .inr (.inl ⟨rfl, rfl, rfl⟩)
  case stopTimer =>
    simp only [hrun] at h
    obtain rfl := Option.some.inj h
    exact .inr (.inr (.inl ⟨rfl, rfl, rfl⟩))
  case logComplete =>
    obtain rfl := Option.some.inj h
    exact .inr (.inr (.inr (.inl ⟨rfl, rfl, rfl⟩)))
  all_goals
    refine .inr (.inr (.inr (.inr ⟨TaskPc.noConfusion, TaskPc.noConfusion, ?_⟩)))
  case popBuffer =>
    split at h
    · exact absurd h (by simp)
    · obtain rfl := Option.some.inj h
      rfl
  case testTxLen =>
    obtain rfl := Option.some.inj h
    split
    · rfl
    · simp [hs, afterStrobeOff]
  all_goals
    try simp only [hrun] at h
    obtain rfl := Option.some.inj h
    rfl

/-- The duty is the one of the last event, and the wait is only reached with duty 0. -/
structure Tracked (last : StrobeEvent) (s : State) : Prop where
  agrees : TimerAgrees s
  window : s.pc = .updateDutyOff ∨ s.pc = .stopTimer → s.duty = dutyAfter last
  quiet : s.pc = .logComplete ∨ s.pc = .popBuffer → s.duty = 0

theorem tracked_boot (memory : Nat → UInt8) : Tracked .strobeOff (boot memory) :=
  ⟨timerAgrees_boot memory, by simp [boot], by simp [boot]⟩

theorem tracked_callback {last : StrobeEvent} {s : State} {stray : UInt8}
    (h : Tracked last s) (hrun : s.timerRunning = true) :
    Tracked (.callback (currentBit stray s)) (timerCallback stray s) := by
  refine ⟨⟨by simpa using h.agrees.running, by simpa using h.agrees.live⟩, ?_, ?_⟩
  · intro _
    simp [dutyAfter]
  · -- the timer stands still in the wait
    intro hpc
    have hon : timerOn s.pc = true := h.agrees.running ▸ hrun
    rw [timerCallback_pc] at hpc
    rcases hpc with hpc | hpc <;> exact absurd hon (by simp [hpc, timerOn])

theorem tracked_enqueue {last : StrobeEvent} {s t : State} {b : MsgBuffer}
    (h : Tracked last s) (hstep : step s (.enqueue b) = some t) : Tracked last t := by
  have agrees' := step_timerAgrees s _ t h.agrees hstep
  obtain ⟨_, rfl⟩ := step_enqueue hstep
  exact ⟨agrees', h.window, h.quiet⟩

/-- A statement that is not `esp_timer_stop` right after a 0 bit keeps the duty accounted for. -/
theorem tracked_task {last : StrobeEvent} {s t : State} (h : Tracked last s)
    (hstep : taskStep s = some t) (hlast : s.pc = .stopTimer → last ≠ .callback false) :
    Tracked ((observeStrobe s .task).getLast?.getD last) t := by
  have agrees' := taskStep_timerAgrees h.agrees hstep
  rcases taskStep_strobe h.agrees hstep with
    ⟨hs, ht, hd⟩ | ⟨hs, ht, hd⟩ | ⟨hs, ht, hd⟩ | ⟨hs, ht, hd⟩ | ⟨hs, hs', ht⟩
  · exact ⟨agrees', by simp [observeStrobe, hs, hd, dutyAfter], by simp [ht]⟩
  · refine ⟨agrees', ?_, by simp [ht]⟩
    intro _
    simpa [observeStrobe, hs, hd] using h.window (.inl hs)
  · have hduty := h.window (.inr hs)
    have hzero : dutyAfter last = 0 := by
      have := hlast hs
      cases last with
      | strobeOff | stop => rfl
      | callback bit => cases bit <;> simp_all [dutyAfter, bitDuty]
    exact ⟨agrees', by simp [ht], fun _ => hd.trans (hduty.trans hzero)⟩
  · exact ⟨agrees', by simp [ht], fun _ => hd.trans (h.quiet (.inl hs))⟩
  · refine ⟨agrees', ?_, ?_⟩ <;> intro hpc <;> rcases hpc with hpc | hpc <;>
      simp [hpc, afterStrobeOff] at ht

theorem observeStrobe_task (s : State) :
    observeStrobe s .task = [] ∨ ∃ e, observeStrobe s .task = [e] := by
  simp only [observeStrobe]
  split
  · exact .inr ⟨_, rfl⟩
  · split
    · exact .inr ⟨_, rfl⟩
    · exact .inl rfl

/-- One step of a run with quiet stops. -/
theorem tracked_step {last : StrobeEvent} {s t : State} {l : Label} {later : List StrobeEvent}
    (h : Tracked last s) (hstep : step s l = some t)
    (hquiet : QuietStops (last :: (observeStrobe s l ++ later))) :
    ∃ last', Tracked last' t ∧ QuietStops (last' :: later) := by
  cases l with
  | enqueue b => exact ⟨last, tracked_enqueue h hstep, hquiet⟩
  | callback stray =>
      obtain ⟨hrun, rfl⟩ := step_callback hstep
      exact ⟨_, tracked_callback h hrun, (List.isChain_cons.mp hquiet).2⟩
  | task =>
      have hlast : s.pc = .stopTimer → last ≠ .callback false := by
        rintro hpc rfl
        simp [observeStrobe, hpc, QuietStops] at hquiet
      refine ⟨_, tracked_task h hstep hlast, ?_⟩
      rcases observeStrobe_task s with hnil | ⟨e, he⟩
      · simpa [hnil] using hquiet
      · rw [he] at hquiet ⊢
        exact (List.isChain_cons.mp hquiet).2

theorem idleOff_of_quietStops {last : StrobeEvent} {s : State} (ls : List Label)
    (h : Tracked last s) (hquiet : QuietStops (last :: trace step observeStrobe s ls)) :
    Always step IdleOff s ls := by
  induction ls generalizing s last with
  | nil => exact fun hpc _ => h.quiet (.inr hpc)
  | cons l ls ih =>
      refine ⟨fun hpc _ => h.quiet (.inr hpc), ?_⟩
      intro t ht
      rw [trace_cons_of_step ht] at hquiet
      obtain ⟨last', h', hquiet'⟩ := tracked_step h ht hquiet
      exact ih h' hquiet'

/-- Once the timer is stopped with the carrier on, the wait is reached with the carrier on. -/
theorem idle_on_after_stop {s u : State} {ls : List Label} (agrees : TimerAgrees s)
    (hpc : s.pc = .logComplete) (hduty : s.duty ≠ 0) (hr : run step s ls = some u)
    (hcut : u.pc ≠ .logComplete) : ¬Always step IdleOff s ls := by
  intro halways
  induction ls generalizing s with
  | nil =>
      obtain rfl : s = u := Option.some.inj hr
      exact hcut hpc
  | cons l ls ih =>
      obtain ⟨t, ht, hr⟩ := run_cons_eq_some.mp hr
      have agrees' := step_timerAgrees s l t agrees ht
      cases l with
      | enqueue b =>
          have htail := halways.2 t ht
          obtain ⟨_, rfl⟩ := step_enqueue ht
          exact ih agrees' hpc hduty hr htail
      | callback stray =>
          obtain ⟨hrun, _⟩ := step_callback ht
          rw [agrees.running, hpc] at hrun
          exact absurd hrun (by decide)
      | task =>
          have hidle := (halways.2 t ht).head
          simp only [step, taskStep, hpc] at ht
          obtain rfl := Option.some.inj ht
          have hoff : s.timerRunning = false := by rw [agrees.running, hpc]; rfl
          exact hduty (hidle rfl hoff)

theorem quietStops_of_idleOff {last : StrobeEvent} {s u : State} {ls : List Label}
    (h : Tracked last s) (hr : run step s ls = some u) (hcut : u.pc ≠ .logComplete)
    (halways : Always step IdleOff s ls) :
    QuietStops (last :: trace step observeStrobe s ls) := by
  induction ls generalizing s last with
  | nil => exact .singleton last
  | cons l ls ih =>
      obtain ⟨t, ht, hr'⟩ := run_cons_eq_some.mp hr
      have htail := halways.2 t ht
      rw [trace_cons_of_step ht]
      cases l with
      | enqueue b => exact ih (tracked_enqueue h ht) hr' htail
      | callback stray =>
          obtain ⟨hrun, rfl⟩ := step_callback ht
          exact List.isChain_cons.mpr
            ⟨by simp [observeStrobe], ih (tracked_callback h hrun) hr' htail⟩
      | task =>
          have hlast : s.pc = .stopTimer → last ≠ .callback false := by
            rintro hpc rfl
            have hduty : s.duty = pwmDuty := h.window (.inr hpc)
            rcases taskStep_strobe h.agrees ht with
              ⟨hs, _⟩ | ⟨hs, _⟩ | ⟨_, hlog, hd⟩ | ⟨hs, _⟩ | ⟨_, hs, _⟩
            · simp [hs] at hpc
            · simp [hs] at hpc
            · have agrees' := taskStep_timerAgrees h.agrees ht
              exact idle_on_after_stop agrees' hlog (by rw [hd, hduty]; decide) hr' hcut htail
            · simp [hs] at hpc
            · exact hs hpc
          have hnext := ih (tracked_task h ht hlast) hr' htail
          rcases observeStrobe_task s with hnil | ⟨e, he⟩
          · simpa [hnil] using hnext
          · rw [he] at hnext ⊢
            refine List.isChain_cons.mpr ⟨?_, hnext⟩
            rintro f hf ⟨rfl, rfl⟩
            obtain rfl : e = .stop := Option.some.inj hf
            have hpc : s.pc = .stopTimer := by
              simp only [observeStrobe] at he
              split at he
              · simp at he
              · split at he
                · assumption
                · simp at he
            exact hlast hpc rfl

/-- The carrier is off in every idle state of the runs in which no `esp_timer_stop` comes directly
after a callback on a 0 bit, and in no other run that goes on to the wait after its last stop. -/
theorem idle_carrier_off_iff (memory : Nat → UInt8) (ls : List Label) :
    (QuietStops (trace step observeStrobe (boot memory) ls) →
        Always step IdleOff (boot memory) ls) ∧
      ∀ u, run step (boot memory) ls = some u → u.pc ≠ .logComplete →
        Always step IdleOff (boot memory) ls →
          QuietStops (trace step observeStrobe (boot memory) ls) := by
  constructor
  · intro hquiet
    apply idleOff_of_quietStops ls (tracked_boot memory)
    exact List.isChain_cons.mpr ⟨by simp, hquiet⟩
  · intro u hr hcut halways
    exact (List.isChain_cons.mp
      (quietStops_of_idleOff (tracked_boot memory) hr hcut halways)).2

/-- The first wait after boot, with one callback before the strobe is switched off. -/
theorem idle_carrier_off_boot :
    Always step IdleOff (boot fun _ => 0)
      (List.replicate 3 .task ++ .callback 0 :: List.replicate 5 .task) :=
  (idle_carrier_off_iff _ _).1 (by unfold QuietStops; decide +kernel)

/-- The first wait after boot, with one callback just before `esp_timer_stop`. -/
def lateZeroRun : List Label := List.replicate 6 .task ++ .callback 0 :: List.replicate 2 .task

theorem late_zero_leaves_carrier_on : ¬Always step IdleOff (boot fun _ => 0) lateZeroRun := by
  intro h
  have hrun : ((run step (boot fun _ => 0) lateZeroRun).map
      fun s => (s.pc, s.timerRunning, s.duty)) = some (.popBuffer, false, pwmDuty) := by decide
  obtain ⟨s, hs, hfields⟩ := Option.map_eq_some_iff.mp hrun
  simp only [Prod.mk.injEq] at hfields
  obtain ⟨hpc, hoff, hduty⟩ := hfields
  exact absurd ((h.last hs) hpc hoff) (by rw [hduty]; decide)

end InfoGlobe.IrLedTask
