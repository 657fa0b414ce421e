import Mathlib.Data.List.Chain
import InfoGlobe.Firmware.FrameMaker

/-!
What the clock tells. The time of the system becomes the fields of a time of day and these the text
of a frame; a reader of the display gets back the minute of the day, as long as no hour passes
between two calls of the clock.
-/

namespace InfoGlobe.FrameMaker
open StepSystem Animations

/-- `localtime_r` where no time zone has been set: the time of day of a count of seconds. -/
def localtimeR (now : Int) : Tm where
  tmHour := (now % 86400 / 3600).toNat
  tmMin := (now % 3600 / 60).toNat
  tmSec := (now % 60).toNat
  hour_lt := by omega
  min_lt := by omega
  sec_le := by omega

/-- `get_current_time`, with its offset in seconds. -/
def getCurrentTime (now : Int) : Tm :=
  let centralTimeOffset := -5 * 3600
  localtimeR (now + centralTimeOffset)

/-- A turn of the loop, with what `time` returns in it. -/
structure TimedTurn where
  currIoLevel : Bool
  now : Int
  tick : UInt32

def TimedTurn.reading (t : TimedTurn) : Reading := ⟨getCurrentTime t.now, t.tick⟩

def TimedTurn.turn (t : TimedTurn) : Turn := ⟨t.currIoLevel, t.reading⟩

/-- The turns in which the clock is on. -/
def onTurns (turns : List TimedTurn) : List TimedTurn :=
  (turns.zipIdx.filter fun p => switchedOn (turns.map TimedTurn.turn) p.2).map Prod.fst

/-- Time does not go back, and no hour passes. -/
def Steady (s t : TimedTurn) : Prop := s.now ≤ t.now ∧ t.now - s.now ≤ 3540

instance (s t : TimedTurn) : Decidable (Steady s t) := inferInstanceAs (Decidable (_ ∧ _))

/-! ### Reading a clock face -/

/-- The minute of the day, five hours behind UTC. -/
def centralMinute (now : Int) : Nat := ((now - 18000) % 86400 / 60).toNat

def readDigit (b : UInt8) : Option Nat :=
  if 48 ≤ b ∧ b ≤ 57 then some (b.toNat - 48) else none

def readNumber (tens ones : UInt8) : Option Nat :=
  (readDigit tens).bind fun a => (readDigit ones).map fun b => 10 * a + b

/-- An hour of the clock with its half of the day, 'A' or 'P'. -/
def readHour (tens ones half : UInt8) : Option Nat :=
  (readNumber tens ones).bind fun hour =>
    if 1 ≤ hour ∧ hour ≤ 12 then
      if half = 65 then some (hour % 12) else if half = 80 then some (hour % 12 + 12) else none
    else none

/-- The minute of the day on a clock face such as "01:05 PM", with or without its colon. -/
def readFace : List UInt8 → Option Nat
  | [h₁, h₂, colon, m₁, m₂, blank, half, m] =>
      if (colon = 58 ∨ colon = 32) ∧ blank = 32 ∧ m = 77 then
        (readHour h₁ h₂ half).bind fun hour =>
          (readNumber m₁ m₂).map fun minute => 60 * hour + minute
      else none
  | _ => none

theorem readNumber_twoDigits : ∀ n : Fin 60,
    readNumber (UInt8.ofNat (48 + n / 10)) (UInt8.ofNat (48 + n % 10)) = some n.val := by
  decide +kernel

theorem readHour_face : ∀ h : Fin 24,
    let hour := if h.val % 12 = 0 then 12 else h.val % 12
    readHour (UInt8.ofNat (48 + hour / 10)) (UInt8.ofNat (48 + hour % 10))
      (if h.val < 12 then 65 else 80) = some h.val := by
  decide +kernel

/-- Reading takes back what `format_time` has written. -/
theorem readFace_formatTime (timeinfo : Tm) (blankColon : Bool) :
    readFace (formatTime timeinfo blankColon) = some (60 * timeinfo.tmHour + timeinfo.tmMin) := by
  have hhour := readHour_face ⟨timeinfo.tmHour, timeinfo.hour_lt⟩
  have hminute := readNumber_twoDigits ⟨timeinfo.tmMin, timeinfo.min_lt⟩
  simp only at hhour hminute
  by_cases hhalf : timeinfo.tmHour < 12
  · rw [if_pos hhalf] at hhour
    cases blankColon <;>
      simp [-UInt8.ofNat_add, readFace, formatTime, twoDigits, asciiBytes, hhalf, hhour, hminute]
  · rw [if_neg hhalf] at hhour
    cases blankColon <;>
      simp [-UInt8.ofNat_add, readFace, formatTime, twoDigits, asciiBytes, hhalf, hhour, hminute]

theorem minute_getCurrentTime (now : Int) :
    60 * (getCurrentTime now).tmHour + (getCurrentTime now).tmMin = centralMinute now := by
  simp only [getCurrentTime, localtimeR, centralMinute]
  omega

/-- The same minute within an hour is a minute of the same hour. -/
theorem hour_of_steady {s t : TimedTurn} (h : Steady s t)
    (hmin : (getCurrentTime t.now).tmMin = (getCurrentTime s.now).tmMin) :
    (getCurrentTime t.now).tmHour = (getCurrentTime s.now).tmHour := by
  obtain ⟨hle, hlt⟩ := h
  simp only [getCurrentTime, localtimeR] at hmin ⊢
  omega

/-! ### The clock of the loop -/

section Loop
variable {ticks : TickMacros}

theorem onTurns_concat {turns : List TimedTurn} {t : TimedTurn}
    (hon : switchedOn ((turns ++ [t]).map TimedTurn.turn) turns.length = true) :
    onTurns (turns ++ [t]) = onTurns turns ++ [t] := by
  have hearlier : turns.zipIdx.filter
        (fun p => switchedOn ((turns ++ [t]).map TimedTurn.turn) p.2) =
      turns.zipIdx.filter fun p => switchedOn (turns.map TimedTurn.turn) p.2 := by
    refine List.filter_congr fun p hp => ?_
    have hlt : p.2 < (turns.map TimedTurn.turn).length := by
      rw [List.length_map]
      exact List.snd_lt_of_mem_zipIdx hp
    rw [List.map_append, List.map_singleton]
    exact switchedOn_concat hlt t.turn
  rw [onTurns, List.zipIdx_append, List.filter_append, List.map_append, hearlier, onTurns]
  rw [List.zipIdx_singleton, Nat.zero_add, List.filter_singleton, hon]
  rfl

theorem onReadings_turns (turns : List TimedTurn) :
    onReadings (turns.map TimedTurn.turn) = (onTurns turns).map TimedTurn.reading := by
  rw [onReadings, onTurns, List.zipIdx_map, List.filter_map, List.map_map, List.map_map]
  rfl

/-- The clock after its calls, with the last of the frames it has sent. -/
def clockAfter (ticks : TickMacros) (readings : List Reading) : Clock where
  vars := clockVars ticks .initial readings
  time := readings.getLast?.map Reading.timeinfo
  shown := (clockFrames ticks .initial readings).getLast?

theorem clockStep_clockAfter (readings : List Reading) (r : Reading) :
    clockStep ticks (clockAfter ticks readings) r = some (clockAfter ticks (readings ++ [r])) := by
  have hshown : (clockFrames ticks .initial (readings ++ [r])).getLast? =
      (runAnimationTime1 ticks (clockVars ticks .initial readings) r.timeinfo r.now).2.or
        (clockFrames ticks .initial readings).getLast? := by
    rw [clockFrames_concat]
    cases (runAnimationTime1 ticks (clockVars ticks .initial readings) r.timeinfo r.now).2 with
    | none => simp
    | some frame => simp
  rw [clockStep, clockAfter, clockAfter, hshown, clockVars_concat, List.getLast?_concat]
  rfl

/-- The hour is seen to pass where time is steady. -/
theorem hourSeen_of_steady {turns : List TimedTurn} {t : TimedTurn}
    (h : ∀ s ∈ turns.getLast?, Steady s t) :
    HourSeen ticks (clockAfter ticks (turns.map TimedTurn.reading)) t.reading := by
  intro last hlast hmin _
  rw [clockAfter, List.getLast?_map, Option.map_map] at hlast
  obtain ⟨s, hs, rfl⟩ := Option.map_eq_some_iff.mp hlast
  exact hour_of_steady (h s hs) hmin

theorem kept_clockAfter {turns : List TimedTurn} (hsteady : turns.IsChain Steady) :
    Kept (clockAfter ticks (turns.map TimedTurn.reading)) := by
  induction turns using List.reverseRecOn with
  | nil => exact .start rfl
  | append_singleton turns t ih =>
      obtain ⟨hearlier, -, hlast⟩ := List.isChain_append.mp hsteady
      have hseen : HourSeen ticks (clockAfter ticks (turns.map TimedTurn.reading)) t.reading :=
        hourSeen_of_steady fun s hs => hlast s hs t rfl
      rw [List.map_append, List.map_singleton]
      exact kept_step _ _ _ (ih hearlier) hseen (clockStep_clockAfter _ _)

theorem readFace_of_fresh {c : Clock} (h : Fresh c) {time : Tm} (htime : c.time = some time) :
    c.shown.bind (fun frame => readFace (frameText frame)) =
      some (60 * time.tmHour + time.tmMin) := by
  rw [Fresh, htime] at h
  obtain ⟨frame, hframe, htext⟩ := Option.map_eq_some_iff.mp h
  rw [hframe, Option.bind_some, htext, readFace_formatTime]

/-- Whenever the clock is on, the last frame of the loop tells the minute of the day in which the
turn is, if time is steady over the turns in which the clock was on. -/
theorem clock_tells_time (ticks : TickMacros) {turns : List TimedTurn} {t : TimedTurn}
    (hon : switchedOn ((turns ++ [t]).map TimedTurn.turn) turns.length = true)
    (hsteady : (onTurns (turns ++ [t])).IsChain Steady) :
    (loopFrames ticks .initial ((turns ++ [t]).map TimedTurn.turn)).getLast?.bind
      (fun frame => readFace (frameText frame)) = some (centralMinute t.now) := by
  have htime : (clockAfter ticks ((onTurns (turns ++ [t])).map TimedTurn.reading)).time =
      some t.reading.timeinfo := by
    rw [onTurns_concat hon, clockAfter, List.map_append, List.map_singleton, List.getLast?_concat]
    rfl
  rw [loopFrames_eq, onReadings_turns]
  exact (readFace_of_fresh (kept_clockAfter hsteady).fresh htime).trans
    (congrArg some (minute_getCurrentTime t.now))

/-- At noon UTC, the button pressed in the second turn. -/
theorem clock_tells_time_noon :
    (loopFrames milliseconds .initial
      ([⟨true, 43190, 0⟩, ⟨false, 43195, 5000⟩, ⟨false, 43200, 10000⟩].map
        TimedTurn.turn)).getLast?.bind (fun frame => readFace (frameText frame)) = some 420 :=
  @clock_tells_time milliseconds [⟨true, 43190, 0⟩, ⟨false, 43195, 5000⟩] ⟨false, 43200, 10000⟩
    (by decide) (by decide)

end Loop

end InfoGlobe.FrameMaker
