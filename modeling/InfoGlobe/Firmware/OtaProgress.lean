import InfoGlobe.Firmware.ColonBlink
import InfoGlobe.Firmware.OtaRetransmit

/-!
The progress display of an update session, on the true time. The tick counter wraps, so a difference
of two readings may be too small; a frame may come late for that, and never early.
-/

namespace InfoGlobe.OtaProgress
open StepSystem MachineInt Animations OtaRetransmit

/-- The readings of the tick counter that a label carries. -/
def clock : Label → List UInt32
  | .nextUpdatePartition _ startTime printTime => [startTime, printTime]
  | .otaBegin _ now => [now]
  | .ticks a b c d => [a, b, c, d]
  | .stateOf _ | .bootPartition _ | .recv _ | .lastInvalid _ | .otaWrite _ | .sendAck | .otaEnd _
  | .setBootPartition _ => []

/-- A label with the ticks since the start of the system in place of the readings. -/
inductive TimedLabel
  | untimed (l : Label) (h : clock l = [])
  | nextUpdatePartition (found : Bool) (startTime printTime : Nat)
  | otaBegin (ok : Bool) (now : Nat)
  | ticks (a b c d : Nat)

def TimedLabel.label : TimedLabel → Label
  | .untimed l _ => l
  | .nextUpdatePartition found startTime printTime =>
      .nextUpdatePartition found (xTaskGetTickCount startTime) (xTaskGetTickCount printTime)
  | .otaBegin ok now => .otaBegin ok (xTaskGetTickCount now)
  | .ticks a b c d =>
      .ticks (xTaskGetTickCount a) (xTaskGetTickCount b) (xTaskGetTickCount c) (xTaskGetTickCount d)

def TimedLabel.times : TimedLabel → List Nat
  | .untimed _ _ => []
  | .nextUpdatePartition _ startTime printTime => [startTime, printTime]
  | .otaBegin _ now => [now]
  | .ticks a b c d => [a, b, c, d]

/-- The times of a progress frame: of the two tests, of the note that it was shown, and the one that
its text counts to. -/
structure Shown where
  tested : Nat
  compared : Nat
  printed : Nat
  counted : Nat
  deriving DecidableEq

/-- A session with the true times behind its variables. -/
structure Timed where
  session : State
  latest : Nat
  otaStart : Nat
  lastPrint : Nat
  shown : List Shown

def start (rxBuffer : Nat → UInt8) : Timed where
  session := OtaRetransmit.start rxBuffer
  latest := 0
  otaStart := 0
  lastPrint := 0
  shown := []

/-- The two tests around the progress display. -/
def Due (p : Platform) (s : State) (a b : Nat) : Prop :=
  xTaskGetTickCount a - s.otaStartTime > p.pdMsToTicks 8000 ∧
    xTaskGetTickCount b - s.otaStatusPrintTime > p.pdMsToTicks 1000

instance (p : Platform) (s : State) (a b : Nat) : Decidable (Due p s a b) :=
  inferInstanceAs (Decidable (_ ∧ _))

def Timed.after (p : Platform) (s : Timed) (session : State) : TimedLabel → Timed
  | .untimed _ _ => { s with session := session }
  | .nextUpdatePartition found startTime printTime =>
      if found then
        { s with
          session := session
          latest := printTime
          otaStart := startTime
          lastPrint := printTime }
      else { s with session := session, latest := printTime }
  | .otaBegin ok now =>
      { s with session := session, latest := now, otaStart := if ok then now else s.otaStart }
  | .ticks a b c d =>
      if Due p s.session a b then
        { s with
          session := session
          latest := d
          lastPrint := c
          shown := s.shown ++ [⟨a, b, c, d⟩] }
      else { s with session := session, latest := d }

def step (p : Platform) (s : Timed) (l : TimedLabel) : Option Timed :=
  (OtaRetransmit.step p s.session l.label).map fun session => s.after p session l

/-- Time does not go back. -/
def Onward (s : Timed) (l : TimedLabel) : Prop := (s.latest :: l.times).Pairwise (· ≤ ·)

instance (s : Timed) (l : TimedLabel) : Decidable (Onward s l) :=
  inferInstanceAs (Decidable (List.Pairwise _ _))

def Shown.frame (p : Platform) (otaStart : Nat) (r : Shown) : MsgBuffer :=
  otaProgressFrame
    (p.pdTicksToMs (xTaskGetTickCount r.counted - xTaskGetTickCount otaStart))

/-- The ticks that are waited before the first progress frame. -/
def quietTime (p : Platform) : Nat := (p.pdMsToTicks 8000).toNat

/-- The ticks that are waited between two progress frames. -/
def pauseTime (p : Platform) : Nat := (p.pdMsToTicks 1000).toNat

structure Paced (p : Platform) (s : Timed) : Prop where
  /-- The display gets the start frame and then the progress frames that are counted here. -/
  frames : s.session.frames = [] ∧ s.shown = [] ∨
    s.session.frames = otaStartFrame :: s.shown.map (Shown.frame p s.otaStart)
  late : ∀ r ∈ s.shown, s.otaStart + quietTime p < r.tested
  apart : s.shown.Pairwise fun r q => r.printed + pauseTime p < q.compared
  few : s.shown ≠ [] →
    s.otaStart + quietTime p + s.shown.length * (pauseTime p + 1) ≤ s.latest + pauseTime p

/-! ### The invariant -/

/-- The handle has been asked for. -/
def opened (s : State) : Bool := s.imageHeaderWasChecked && decide (s.pc ≠ .otaBegin)

/-- Whether the header has been checked, at the places that depend on it. -/
def Placed (s : State) : Prop :=
  match s.pc with
  | .getState | .getBootPartition | .getNextUpdatePartition | .checkVersion =>
      s.imageHeaderWasChecked = false
  | .otaBegin | .otaWrite | .showProgress => s.imageHeaderWasChecked = true
  | .recv | .sendAck | .otaEnd | .setBootPartition | .returned _ => True

structure Inv (p : Platform) (s : Timed) : Prop where
  placed : Placed s.session
  startTime : s.session.otaStartTime = xTaskGetTickCount s.otaStart
  printTime : s.session.otaStatusPrintTime = xTaskGetTickCount s.lastPrint
  start_le : s.otaStart ≤ s.latest
  print_le : s.lastPrint ≤ s.latest
  unopened : opened s.session = false → s.session.frames = [] ∧ s.shown = []
  frames : opened s.session = true →
    (s.session.frames = [] ∧ s.shown = [] ∧ ∃ code, s.session.pc = .returned code) ∨
      s.session.frames = otaStartFrame :: s.shown.map (Shown.frame p s.otaStart)
  late : ∀ r ∈ s.shown, s.otaStart + quietTime p < r.tested
  apart : s.shown.Pairwise fun r q => r.printed + pauseTime p < q.compared
  printed : ∀ r ∈ s.shown, r.printed ≤ s.lastPrint
  few : s.shown ≠ [] →
    s.otaStart + quietTime p + s.shown.length * (pauseTime p + 1) ≤ s.lastPrint + pauseTime p

theorem Inv.paced {p : Platform} {s : Timed} (h : Inv p s) : Paced p s := by
  refine ⟨?_, h.late, h.apart, fun hne => ?_⟩
  · cases hopened : opened s.session with
    | false => exact .inl (h.unopened hopened)
    | true =>
        rcases h.frames hopened with ⟨hframes, hshown, _⟩ | hframes
        · exact .inl ⟨hframes, hshown⟩
        · exact .inr hframes
  · have hfew := h.few hne
    have hle := h.print_le
    omega

theorem inv_start (p : Platform) (rxBuffer : Nat → UInt8) : Inv p (start rxBuffer) := by
  refine ⟨rfl, rfl, rfl, Nat.le_refl 0, Nat.le_refl 0, fun _ => ⟨rfl, rfl⟩, ?_, by simp [start],
    List.Pairwise.nil, by simp [start], by simp [start]⟩
  simp [opened, start, OtaRetransmit.start]

/-! ### Each step -/

/-- What the labels without a reading leave as it is. -/
structure Untouched (s t : State) : Prop where
  placed : Placed t
  startTime : t.otaStartTime = s.otaStartTime
  printTime : t.otaStatusPrintTime = s.otaStatusPrintTime
  frames : t.frames = s.frames
  opened : opened t = opened s

theorem untouched_of_step {p : Platform} {s t : State} {l : Label} (hclock : clock l = [])
    (hs : Placed s) (h : OtaRetransmit.step p s l = some t) : Untouched s t := by
  obtain ⟨⟨hpc, _⟩, rfl⟩ := OtaRetransmit.step_eq_some.mp h
  unfold Placed at hs
  rw [hpc] at hs
  cases l with
  | nextUpdatePartition _ _ _ | otaBegin _ _ | ticks _ _ _ _ => simp [clock] at hclock
  | stateOf pending =>
      cases pending <;> exact ⟨hs, rfl, rfl, rfl, by simp [opened, effect, hpc, Label.pc, State.log]⟩
  | bootPartition found =>
      cases found
      · exact ⟨trivial, rfl, rfl, rfl, by
          simp [opened, effect, hpc, Label.pc, State.freeAndReturn, State.log]⟩
      · exact ⟨hs, rfl, rfl, rfl, by simp [opened, effect, hpc, Label.pc]⟩
  | recv r =>
      cases r with
      | error =>
          exact ⟨trivial, rfl, rfl, rfl, by
            simp [opened, effect, afterRecv, hpc, Label.pc, State.freeAndReturn, State.log]⟩
      | closed =>
          exact ⟨trivial, rfl, rfl, rfl, by
            simp [opened, effect, afterRecv, hpc, Label.pc, State.log]⟩
      | data bytes =>
          cases hchecked : s.imageHeaderWasChecked with
          | true =>
              refine ⟨?_, rfl, rfl, rfl, ?_⟩ <;>
                simp [Placed, opened, effect, afterRecv, hpc, Label.pc, State.log, hchecked]
          | false =>
              refine ⟨?_, rfl, rfl, rfl, by simp [opened, effect, afterRecv, State.log, hchecked]⟩
              by_cases hheader : p.headerSize < s.dataRead + bytes.length <;>
                simp [Placed, effect, afterRecv, State.log, hchecked, hheader]
  | lastInvalid app =>
      have hchecked : s.imageHeaderWasChecked = false := hs
      by_cases hrejects : app.rejects (newVersion p s) = true
      · refine ⟨?_, ?_, ?_, ?_, ?_⟩ <;>
          simp [Placed, opened, effect, hrejects, State.freeAndReturn, State.log, hchecked]
      · refine ⟨?_, ?_, ?_, ?_, ?_⟩ <;> simp [Placed, opened, effect, hrejects, hchecked]
  | otaWrite ok =>
      have hchecked : s.imageHeaderWasChecked = true := hs
      cases ok <;> refine ⟨?_, rfl, rfl, rfl, ?_⟩ <;>
        simp [Placed, opened, effect, afterWrite, hpc, Label.pc, State.freeAndReturn, State.log,
          hchecked]
  | sendAck => exact ⟨trivial, rfl, rfl, rfl, by simp [opened, effect, hpc, Label.pc, State.log]⟩
  | otaEnd ok | setBootPartition ok =>
      cases ok <;> exact ⟨trivial, rfl, rfl, rfl, by
        simp [opened, effect, hpc, Label.pc, State.freeAndReturn, State.log]⟩

section Steps
variable {p : Platform} {s : Timed}

theorem inv_untimed (h : Inv p s) {l : Label} (hclock : clock l = []) {session : State}
    (hstep : OtaRetransmit.step p s.session l = some session) :
    Inv p { s with session := session } := by
  obtain ⟨hplaced, hstart, hprint, hframes, hopened⟩ := untouched_of_step hclock h.placed hstep
  refine ⟨hplaced, hstart.trans h.startTime, hprint.trans h.printTime, h.start_le, h.print_le, ?_, ?_,
    h.late, h.apart, h.printed, h.few⟩
  · intro hclosed
    rw [hframes]
    exact h.unopened (hopened.symm.trans hclosed)
  · intro hopen
    rcases h.frames (hopened.symm.trans hopen) with ⟨_, _, code, hcode⟩ | hshown
    · exact absurd hcode (not_returned_of_step hstep code)
    · exact .inr (hframes.trans hshown)

/-- Nothing has been shown yet. -/
theorem inv_unshown (hshown : s.shown = []) {session : State} {latest otaStart lastPrint : Nat}
    (hplaced : Placed session)
    (hstart : session.otaStartTime = xTaskGetTickCount otaStart)
    (hprint : session.otaStatusPrintTime = xTaskGetTickCount lastPrint)
    (hstart_le : otaStart ≤ latest) (hprint_le : lastPrint ≤ latest)
    (hunopened : opened session = false → session.frames = [])
    (hframes : opened session = true →
      (session.frames = [] ∧ ∃ code, session.pc = .returned code) ∨
        session.frames = [otaStartFrame]) :
    Inv p { s with
      session := session, latest := latest, otaStart := otaStart, lastPrint := lastPrint } := by
  refine ⟨hplaced, hstart, hprint, hstart_le, hprint_le, fun hopened => ⟨hunopened hopened, hshown⟩,
    ?_, by simp [hshown], by simp [hshown], by simp [hshown], by simp [hshown]⟩
  intro hopened
  rcases hframes hopened with ⟨hnone, hcode⟩ | hone
  · exact .inl ⟨hnone, hshown, hcode⟩
  · exact .inr (by simp [hone, hshown])

theorem inv_nextUpdatePartition (h : Inv p s) {found : Bool} {startTime printTime : Nat}
    (honward : Onward s (.nextUpdatePartition found startTime printTime)) {session : State}
    (hstep : OtaRetransmit.step p s.session
      (TimedLabel.nextUpdatePartition found startTime printTime).label = some session) :
    Inv p (s.after p session (.nextUpdatePartition found startTime printTime)) := by
  obtain ⟨⟨hpc, _⟩, rfl⟩ := OtaRetransmit.step_eq_some.mp hstep
  have hat : s.session.pc = .getNextUpdatePartition := hpc
  have hchecked : s.session.imageHeaderWasChecked = false := by
    have hplaced := h.placed
    simpa only [Placed, hat] using hplaced
  obtain ⟨hframes, hshown⟩ := h.unopened (by simp [opened, hchecked])
  simp only [Onward, TimedLabel.times, List.pairwise_cons, List.mem_cons, List.not_mem_nil,
    or_false, forall_eq_or_imp, forall_eq] at honward
  have hstart_le := h.start_le
  have hprint_le := h.print_le
  cases found with
  | true =>
      refine inv_unshown hshown ?_ rfl rfl (by omega) (Nat.le_refl _) (fun _ => hframes) ?_ <;>
        simp [Placed, opened, effect, TimedLabel.label, hchecked]
  | false =>
      refine inv_unshown hshown trivial h.startTime h.printTime (by omega) (by omega)
        (fun _ => hframes) ?_
      simp [opened, effect, TimedLabel.label, State.freeAndReturn, State.log, hchecked]

theorem inv_otaBegin (h : Inv p s) {ok : Bool} {now : Nat} (honward : Onward s (.otaBegin ok now))
    {session : State}
    (hstep : OtaRetransmit.step p s.session (TimedLabel.otaBegin ok now).label = some session) :
    Inv p (s.after p session (.otaBegin ok now)) := by
  obtain ⟨⟨hpc, _⟩, rfl⟩ := OtaRetransmit.step_eq_some.mp hstep
  have hat : s.session.pc = .otaBegin := hpc
  have hchecked : s.session.imageHeaderWasChecked = true := by
    have hplaced := h.placed
    simpa only [Placed, hat] using hplaced
  obtain ⟨hframes, hshown⟩ := h.unopened (by simp [opened, hat])
  simp only [Onward, TimedLabel.times, List.pairwise_cons, List.mem_cons, List.not_mem_nil,
    or_false, forall_eq] at honward
  have hstart_le := h.start_le
  have hprint_le := h.print_le
  cases ok with
  | true =>
      refine inv_unshown hshown trivial rfl h.printTime (Nat.le_refl _) (by omega) ?_ ?_
      · simp [opened, effect, TimedLabel.label, State.log, hchecked]
      · intro _
        exact .inr (by simp [effect, TimedLabel.label, State.log, hframes])
  | false =>
      refine inv_unshown hshown trivial h.startTime h.printTime (by simp; omega) (by omega)
        (fun _ => hframes) ?_
      intro _
      exact .inl ⟨hframes, -6, rfl⟩

/-- A frame that is due by the readings is due by the true times. -/
theorem due_true (h : Inv p s) {a b : Nat} (ha : s.latest ≤ a) (hb : s.latest ≤ b)
    (hdue : Due p s.session a b) :
    s.otaStart + quietTime p < a ∧ s.lastPrint + pauseTime p < b := by
  obtain ⟨hquiet, hpause⟩ := hdue
  rw [h.startTime] at hquiet
  rw [h.printTime] at hpause
  have hstart := toNat_sub_ofNat_le (Nat.le_trans h.start_le ha)
  have hprint := toNat_sub_ofNat_le (Nat.le_trans h.print_le hb)
  have hquiet := UInt32.lt_iff_toNat_lt.mp hquiet
  have hpause := UInt32.lt_iff_toNat_lt.mp hpause
  have hstart_le := h.start_le
  have hprint_le := h.print_le
  unfold xTaskGetTickCount at hquiet hpause
  unfold quietTime pauseTime
  omega

theorem inv_ticks (h : Inv p s) {a b c d : Nat} (honward : Onward s (.ticks a b c d))
    {session : State}
    (hstep : OtaRetransmit.step p s.session (TimedLabel.ticks a b c d).label = some session) :
    Inv p (s.after p session (.ticks a b c d)) := by
  obtain ⟨⟨hpc, _⟩, rfl⟩ := OtaRetransmit.step_eq_some.mp hstep
  have hat : s.session.pc = .showProgress := hpc
  have hchecked : s.session.imageHeaderWasChecked = true := by
    have hplaced := h.placed
    simpa only [Placed, hat] using hplaced
  have hframes : s.session.frames = otaStartFrame :: s.shown.map (Shown.frame p s.otaStart) := by
    rcases h.frames (by simp [opened, hchecked, hat]) with ⟨_, _, code, hcode⟩ | hframes
    · rw [hat] at hcode
      exact absurd hcode (by simp)
    · exact hframes
  simp only [Onward, TimedLabel.times, List.pairwise_cons, List.mem_cons, List.not_mem_nil,
    or_false, forall_eq_or_imp, forall_eq] at honward
  have hstart_le := h.start_le
  have hprint_le := h.print_le
  by_cases hdue : Due p s.session a b
  · obtain ⟨hquiet, hpause⟩ := due_true h honward.1.1 honward.1.2.1 hdue
    have hshows : xTaskGetTickCount a - s.session.otaStartTime > p.pdMsToTicks 8000 ∧
        xTaskGetTickCount b - s.session.otaStatusPrintTime > p.pdMsToTicks 1000 := hdue
    simp only [Timed.after, if_pos hdue, effect, afterTicks, TimedLabel.label, if_pos hshows]
    refine ⟨trivial, h.startTime, rfl, ?_, ?_, ?_, ?_, ?_, ?_, ?_, ?_⟩
    · simp only
      omega
    · simp only
      omega
    · simp [opened, hchecked]
    · intro _
      refine .inr ?_
      rw [hframes, h.startTime, List.map_append]
      rfl
    · intro r hr
      rcases List.mem_append.mp hr with hr | hr
      · exact h.late r hr
      · obtain rfl := List.mem_singleton.mp hr
        exact hquiet
    · rw [List.pairwise_append]
      refine ⟨h.apart, by simp, ?_⟩
      intro r hr q hq
      obtain rfl := List.mem_singleton.mp hq
      have hprinted := h.printed r hr
      simp only
      omega
    · intro r hr
      rcases List.mem_append.mp hr with hr | hr
      · have hprinted := h.printed r hr
        simp only
        omega
      · obtain rfl := List.mem_singleton.mp hr
        exact Nat.le_refl c
    · intro _
      simp only [List.length_append, List.length_singleton, Nat.add_mul, Nat.one_mul]
      by_cases hnone : s.shown = []
      · simp only [hnone, List.length_nil]
        omega
      · have hfew := h.few hnone
        omega
  · have hquiet : ¬(xTaskGetTickCount a - s.session.otaStartTime > p.pdMsToTicks 8000 ∧
        xTaskGetTickCount b - s.session.otaStatusPrintTime > p.pdMsToTicks 1000) := hdue
    simp only [Timed.after, if_neg hdue, effect, afterTicks, TimedLabel.label, if_neg hquiet]
    refine ⟨trivial, h.startTime, h.printTime, ?_, ?_, ?_, fun _ => .inr hframes, h.late, h.apart,
      h.printed, h.few⟩
    · simp only
      omega
    · simp only
      omega
    · simp [opened, hchecked]

theorem inv_step (s : Timed) (l : TimedLabel) (t : Timed) (h : Inv p s) (honward : Onward s l)
    (hstep : step p s l = some t) : Inv p t := by
  obtain ⟨session, hsession, rfl⟩ := Option.map_eq_some_iff.mp hstep
  cases l with
  | untimed l hclock => exact inv_untimed h hclock hsession
  | nextUpdatePartition found startTime printTime => exact inv_nextUpdatePartition h honward hsession
  | otaBegin ok now => exact inv_otaBegin h honward hsession
  | ticks a b c d => exact inv_ticks h honward hsession

end Steps

/-- While time does not go back, a session shows its first progress frame only when the time before
it is over, and each further one only when the pause since the last is over, however often the
counter goes round. -/
theorem progress_paced (p : Platform) (rxBuffer : Nat → UInt8) {ls : List TimedLabel}
    (honward : EachStep (step p) Onward (start rxBuffer) ls) :
    Always (step p) (Paced p) (start rxBuffer) ls :=
  always_of_eachStep (fun _ h => h.paced) inv_step (inv_start p rxBuffer) honward

/-- An image of one byte more than the header, and then single bytes; the counter goes round between
the two progress frames. -/
def slowUpdate : List TimedLabel :=
  [.untimed (.stateOf false) rfl, .untimed (.bootPartition true) rfl,
    .nextUpdatePartition true (2 ^ 32 - 9500) (2 ^ 32 - 9500),
    .untimed (.recv (.data (List.replicate 289 0))) rfl,
    .untimed (.lastInvalid ⟨false, none, []⟩) rfl, .otaBegin true (2 ^ 32 - 9000),
    .untimed .sendAck rfl, .untimed (.recv (.data [1])) rfl, .untimed (.otaWrite true) rfl,
    .ticks (2 ^ 32 - 900) (2 ^ 32 - 900) (2 ^ 32 - 900) (2 ^ 32 - 900), .untimed .sendAck rfl,
    .untimed (.recv (.data [2])) rfl, .untimed (.otaWrite true) rfl,
    .ticks (2 ^ 32 + 100) (2 ^ 32 + 100) (2 ^ 32 + 100) (2 ^ 32 + 100), .untimed .sendAck rfl,
    .untimed (.recv (.data [3])) rfl, .untimed (.otaWrite true) rfl,
    .ticks (2 ^ 32 + 101) (2 ^ 32 + 101) (2 ^ 32 + 101) (2 ^ 32 + 101)]

theorem progress_paced_slow : ∃ t, run (step espIdf) (start fun _ => 0) slowUpdate = some t ∧
    t.shown.length = 2 ∧ Paced espIdf t := by
  have hrun : (run (step espIdf) (start fun _ => 0) slowUpdate).map (fun t => t.shown.length) =
      some 2 := by
    decide +kernel
  obtain ⟨t, ht, hshown⟩ := Option.map_eq_some_iff.mp hrun
  have honward : EachStep (step espIdf) Onward (start fun _ => 0) slowUpdate := by decide +kernel
  exact ⟨t, ht, hshown, (progress_paced espIdf (fun _ => 0) honward).last ht⟩

end InfoGlobe.OtaProgress
